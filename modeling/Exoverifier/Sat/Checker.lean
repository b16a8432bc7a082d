import Exoverifier.Sat.Dimacs

/-! # Proof checking

A refutation runs through the actions of a proof and ends with an empty clause.
The handlers of the three kinds of actions are parameters; each has a
specification, and a refutation is sound as soon as its handlers meet theirs.
-/

namespace Exoverifier.Sat

open UnorderedMap

inductive Result (κ : Type) where
  | ok
  | outOfHints
  | missingClause (k : κ)
  | noUnitClause (k : κ)
  | outOfProof
  | noRatSupport
  | missingPivot
  deriving DecidableEq

variable {α β κ γ : Type}

def Literal.neg (l : Literal α) : Literal α := ⟨l.1, !l.2⟩

theorem Literal.sat_neg (p : α → Bool) (l : Literal α) :
    Literal.sat p l.neg = !Literal.sat p l := by
  unfold Literal.sat Literal.neg
  cases p l.1 <;> cases l.2 <;> rfl

/-- No assignment satisfies the formula. -/
def Formula.Unsat [Clause α β] [Formula κ β γ] (f : γ) : Prop :=
  ∀ p : α → Bool, Formula.sat p f = false

/-! ## Clauses of a formula -/

section Entailment

variable [Clause α β] [Formula κ β γ]

theorem Clause.not_sat_of_null {c : β} (h : null c = true) (p : α → Bool) :
    Clause.sat p c = false := by
  rw [Clause.sat, (null_iff c).1 h, List.any_nil]

theorem Formula.sat_of_lookup [DecidableEq κ] {p : α → Bool} {f : γ} {k : κ} {c : β}
    (h : Formula.sat p f = true) (hk : lookup k f = some c) : Clause.sat p c = true :=
  Formula.sat_iff_forall.1 h k c ((mem_lookup_iff k c f).1 hk)

theorem Formula.sat_kinsert [DecidableEq κ] {p : α → Bool} {f : γ} {c : β}
    (h : Formula.sat p f = true) (hc : Clause.sat p c = true) (k : κ) :
    Formula.sat p (kinsert k c f) = true := by
  rw [Formula.sat_iff_forall]
  intro k' c' hmem
  rcases (mem_kinsert_iff k c f _).1 hmem with hold | ⟨-, hnew⟩
  · exact Formula.sat_iff_forall.1 h k' c' hold
  · cases hnew
    exact hc

theorem Formula.sat_of_subset {p : α → Bool} {f g : γ} (hsub : toList g ⊆ toList f)
    (h : Formula.sat p f = true) : Formula.sat p g = true := by
  rw [Formula.sat_iff_forall] at h ⊢
  exact fun k c hmem => h k c (hsub hmem)

theorem Formula.unsat_of_mem {f : γ} {c : β} (h : c ∈ elems f) (hc : null c = true) :
    Formula.Unsat (α := α) f := by
  intro p
  rw [Bool.eq_false_iff]
  intro hsat
  obtain ⟨k, hk⟩ := (mem_elems_iff f c).1 h
  have hclause := Formula.sat_iff_forall.1 hsat k c hk
  rw [Clause.not_sat_of_null hc p] at hclause
  exact absurd hclause (by decide)

end Entailment

/-! ## Refutations -/

section Refute

variable [Clause α β] [Formula κ β γ] [DecidableEq κ]

/-- An accepted unit propagation adds a consequence. -/
def RupSpec (rup : γ → List κ → β → Result κ) : Prop :=
  ∀ f c hints, rup f hints c = .ok →
    ∀ p : α → Bool, Formula.sat p f = true → Clause.sat p c = true

/-- An accepted resolution keeps the formula satisfiable or not. -/
def RatSpec (rat : γ → Literal α → List κ → List (κ × List κ) → β → Result κ) : Prop :=
  ∀ f l c ks hints, rat f l ks hints c = .ok →
    ∀ k, Formula.Unsat (α := α) f ↔ Formula.Unsat (α := α) (kinsert k c f)

/-- A deletion leaves clauses of the formula. -/
def DelSpec (del : γ → γ → γ) : Prop := ∀ f hints, toList (del f hints) ⊆ toList f

/-- A handler without support for resolution accepts nothing. -/
theorem ratSpec_none :
    RatSpec (fun _ _ _ _ _ => .noRatSupport : γ → Literal α → List κ → List (κ × List κ) → β →
      Result κ) := by
  intro f l c ks hints h
  exact absurd h (by simp)

section Handlers

variable (rup : γ → List κ → β → Result κ)
  (rat : γ → Literal α → List κ → List (κ × List κ) → β → Result κ) (del : γ → γ → γ)

def refute : γ → List (Action α β κ γ) → Result κ
  | f, [] => if (elems f).any null then .ok else .outOfProof
  | f, .rup k c hints :: as =>
      let r := rup f hints c
      if r = .ok then
        -- the last clause added need not be inserted if it is empty
        if as.isEmpty && null c then .ok else refute (kinsert k c f) as
      else r
  | f, .rat k l c ks hints :: as =>
      let r := rat f l ks hints c
      if r = .ok then refute (kinsert k c f) as else r
  | f, .del _ hints :: as => refute (del f hints) as

variable {rup rat del}

/-- A refutation whose handlers are correct only refutes unsatisfiable formulas. -/
theorem unsat_of_refute (hrup : RupSpec rup) (hrat : RatSpec rat) (hdel : DelSpec (κ := κ) del)
    {f : γ} {as : List (Action α β κ γ)} (h : refute rup rat del f as = .ok) :
    Formula.Unsat (α := α) f := by
  induction as generalizing f with
  | nil =>
      rw [refute] at h
      by_cases hany : (elems f).any null = true
      · obtain ⟨c, hmem, hc⟩ := List.any_eq_true.1 hany
        exact Formula.unsat_of_mem hmem hc
      · rw [if_neg hany] at h
        exact absurd h (by simp)
  | cons a as ih =>
      cases a with
      | rup k c hints =>
          rw [refute] at h
          by_cases hr : rup f hints c = .ok
          · have hc := hrup f c hints hr
            simp only [hr, if_true] at h
            intro p
            rw [Bool.eq_false_iff]
            intro hsat
            by_cases hlast : (as.isEmpty && null c) = true
            · have hnull := Clause.not_sat_of_null (Bool.and_eq_true_iff.1 hlast).2 p
              rw [hc p hsat] at hnull
              exact absurd hnull (by decide)
            · rw [if_neg hlast] at h
              have hunsat := ih h p
              rw [Formula.sat_kinsert hsat (hc p hsat) k] at hunsat
              exact absurd hunsat (by decide)
          · simp only [if_neg hr] at h
            exact absurd h hr
      | rat k l c ks hints =>
          rw [refute] at h
          by_cases hr : rat f l ks hints c = .ok
          · simp only [hr, if_true] at h
            exact (hrat f l c ks hints hr k).2 (ih h)
          · simp only [if_neg hr] at h
            exact absurd h hr
      | del k hints =>
          rw [refute] at h
          intro p
          rw [Bool.eq_false_iff]
          intro hsat
          have hunsat := ih h p
          rw [Formula.sat_of_subset (hdel f hints) hsat] at hunsat
          exact absurd hunsat (by decide)

end Handlers

end Refute

/-! ## Reverse unit propagation -/

section Rup

variable [Clause α β] [Formula κ β γ] [DecidableEq α] [DecidableEq κ]

/-- The status of the check, or the clause reached when the hints run out. -/
def rupCore (f : γ) : List κ → β → Result κ ⊕ β
  | [], c => .inr c
  | k :: ks, c =>
      match lookup k f with
      | none => .inl (.missingClause k)
      | some cₖ =>
          let d := sdiff₂ cₖ c
          if null d then .inl .ok
          else
            match unsingleton d with
            | some l =>
                let nl := Literal.neg l
                rupCore f ks (insert₂ nl.1 nl.2 c)
            | none => .inl (.noUnitClause k)

def rup (f : γ) (hints : List κ) (c : β) : Result κ :=
  match rupCore f hints c with
  | .inl r => r
  | .inr _ => .outOfHints

/-- All literals of the hinted clause are in the clause to be added. -/
def Conflict (cₖ c : β) : Prop := ∀ l ∈ toList cₖ, l ∈ toList c

/-- The hinted clause has one literal outside the clause to be added. -/
def IsUnit (cₖ c : β) (l : Literal α) : Prop := ∀ l', l' ∈ toList cₖ ∧ l' ∉ toList c ↔ l' = l

theorem null_sdiff₂_iff {cₖ c : β} : null (sdiff₂ cₖ c) = true ↔ Conflict cₖ c := by
  rw [null_iff, List.eq_nil_iff_forall_not_mem]
  simp only [mem_sdiff₂_iff, not_and, not_not, Conflict]

theorem unsingleton_sdiff₂_iff {cₖ c : β} {l : Literal α} :
    unsingleton (sdiff₂ cₖ c) = some l ↔ IsUnit cₖ c l := by
  rw [unsingleton_iff, ← List.perm_singleton, List.perm_ext_iff_of_nodup (nodupKeys _).nodup
    (List.nodup_singleton l)]
  simp only [mem_sdiff₂_iff, List.mem_singleton, IsUnit]

omit [DecidableEq α] in
theorem IsUnit.not_conflict {cₖ c : β} {l : Literal α} (h : IsUnit cₖ c l) : ¬ Conflict cₖ c := by
  intro hconflict
  obtain ⟨hmem, hnew⟩ := (h l).2 rfl
  exact hnew (hconflict l hmem)

/-- Every hint is a unit, and the negation of its literal joins the clause. -/
inductive Propagates (f : γ) : β → List κ → β → Prop where
  | nil {c : β} : Propagates f c [] c
  | cons {c cₖ d : β} {l : Literal α} {k : κ} {ks : List κ} (hk : lookup k f = some cₖ)
      (hunit : IsUnit cₖ c l) (hks : Propagates f (insert₂ l.neg.1 l.neg.2 c) ks d) :
      Propagates f c (k :: ks) d

/-- What the check of an addition finds. All hints before the one it stops at are
units. -/
def RupVerdict (f : γ) (hints : List κ) (c : β) : Result κ → Prop
  | .ok => ∃ ks k ks' d cₖ, hints = ks ++ k :: ks' ∧ Propagates f c ks d ∧
      lookup k f = some cₖ ∧ Conflict cₖ d
  | .outOfHints => ∃ d, Propagates f c hints d
  | .missingClause k => ∃ ks ks' d, hints = ks ++ k :: ks' ∧ Propagates f c ks d ∧
      lookup k f = none
  | .noUnitClause k => ∃ ks ks' d cₖ, hints = ks ++ k :: ks' ∧ Propagates f c ks d ∧
      lookup k f = some cₖ ∧ ¬ Conflict cₖ d ∧ ∀ l, ¬ IsUnit cₖ d l
  | _ => False

section Hints

variable {f : γ} {k : κ} {ks : List κ} {c cₖ : β}

theorem rup_cons_missing (hk : lookup k f = none) : rup f (k :: ks) c = .missingClause k := by
  unfold rup
  rw [rupCore]
  simp only [hk]

theorem rup_cons_conflict (hk : lookup k f = some cₖ) (h : Conflict cₖ c) :
    rup f (k :: ks) c = .ok := by
  unfold rup
  rw [rupCore]
  simp only [hk, null_sdiff₂_iff.2 h, if_true]

theorem rup_cons_unit {l : Literal α} (hk : lookup k f = some cₖ) (h : IsUnit cₖ c l) :
    rup f (k :: ks) c = rup f ks (insert₂ l.neg.1 l.neg.2 c) := by
  have hnull := mt null_sdiff₂_iff.1 h.not_conflict
  unfold rup
  rw [rupCore]
  simp only [hk, if_neg hnull, unsingleton_sdiff₂_iff.2 h]

theorem rup_cons_noUnit (hk : lookup k f = some cₖ) (hnot : ¬ Conflict cₖ c)
    (h : ∀ l, ¬ IsUnit cₖ c l) : rup f (k :: ks) c = .noUnitClause k := by
  have hnull := mt null_sdiff₂_iff.1 hnot
  have hunit : unsingleton (sdiff₂ cₖ c) = none :=
    Option.eq_none_iff_forall_ne_some.2 fun l hl => h l (unsingleton_sdiff₂_iff.1 hl)
  unfold rup
  rw [rupCore]
  simp only [hk, if_neg hnull, hunit]

end Hints

/-- Units at the front of the hints are passed. -/
theorem Propagates.rup_append {f : γ} {c d : β} {ks : List κ} (h : Propagates f c ks d)
    (ks' : List κ) : rup f (ks ++ ks') c = rup f ks' d := by
  induction h with
  | nil => rfl
  | cons hk hunit _ ih => rw [List.cons_append, rup_cons_unit hk hunit, ih]

theorem RupVerdict.cons {f : γ} {c cₖ : β} {l : Literal α} {k : κ} {ks : List κ} {r : Result κ}
    (hk : lookup k f = some cₖ) (hunit : IsUnit cₖ c l)
    (h : RupVerdict f ks (insert₂ l.neg.1 l.neg.2 c) r) : RupVerdict f (k :: ks) c r := by
  cases r with
  | ok =>
      obtain ⟨before, k', after, d, cₖ', rfl, hbefore, hstop⟩ := h
      exact ⟨k :: before, k', after, d, cₖ', rfl, .cons hk hunit hbefore, hstop⟩
  | outOfHints =>
      obtain ⟨d, hks⟩ := h
      exact ⟨d, .cons hk hunit hks⟩
  | missingClause k' =>
      obtain ⟨before, after, d, rfl, hbefore, hstop⟩ := h
      exact ⟨k :: before, after, d, rfl, .cons hk hunit hbefore, hstop⟩
  | noUnitClause k' =>
      obtain ⟨before, after, d, cₖ', rfl, hbefore, hstop⟩ := h
      exact ⟨k :: before, after, d, cₖ', rfl, .cons hk hunit hbefore, hstop⟩
  | outOfProof => exact h
  | noRatSupport => exact h
  | missingPivot => exact h

theorem rupVerdict_rup (f : γ) (hints : List κ) (c : β) :
    RupVerdict f hints c (rup f hints c) := by
  induction hints generalizing c with
  | nil => exact ⟨c, .nil⟩
  | cons k ks ih =>
      cases hk : lookup k f with
      | none =>
          rw [rup_cons_missing hk]
          exact ⟨[], ks, c, rfl, .nil, hk⟩
      | some cₖ =>
          by_cases hconflict : Conflict cₖ c
          · rw [rup_cons_conflict hk hconflict]
            exact ⟨[], k, ks, c, cₖ, rfl, .nil, hk, hconflict⟩
          · by_cases hunit : ∃ l, IsUnit cₖ c l
            · obtain ⟨l, hl⟩ := hunit
              rw [rup_cons_unit hk hl]
              exact .cons hk hl (ih _)
            · have hnone : ∀ l, ¬ IsUnit cₖ c l := fun l hl => hunit ⟨l, hl⟩
              rw [rup_cons_noUnit hk hconflict hnone]
              exact ⟨[], ks, c, cₖ, rfl, .nil, hk, hconflict, hnone⟩

theorem RupVerdict.rup_eq {f : γ} {hints : List κ} {c : β} {r : Result κ}
    (h : RupVerdict f hints c r) : rup f hints c = r := by
  cases r with
  | ok =>
      obtain ⟨ks, k, ks', d, cₖ, rfl, hks, hk, hconflict⟩ := h
      rw [hks.rup_append, rup_cons_conflict hk hconflict]
  | outOfHints =>
      obtain ⟨d, hks⟩ := h
      rw [← List.append_nil hints, hks.rup_append]
      rfl
  | missingClause k =>
      obtain ⟨ks, ks', d, rfl, hks, hk⟩ := h
      rw [hks.rup_append, rup_cons_missing hk]
  | noUnitClause k =>
      obtain ⟨ks, ks', d, cₖ, rfl, hks, hk, hnot, hnone⟩ := h
      rw [hks.rup_append, rup_cons_noUnit hk hnot hnone]
  | outOfProof => exact h.elim
  | noRatSupport => exact h.elim
  | missingPivot => exact h.elim

/-- The check of an addition has a result exactly when it finds what the result says. -/
theorem rup_eq_iff {f : γ} {hints : List κ} {c : β} {r : Result κ} :
    rup f hints c = r ↔ RupVerdict f hints c r := by
  constructor
  · rintro rfl
    exact rupVerdict_rup f hints c
  · exact RupVerdict.rup_eq

theorem Clause.sat_of_insert₂ {p : α → Bool} {l : Literal α} {c : β}
    (h : Clause.sat p (insert₂ l.1 l.2 c) = true) :
    Literal.sat p l = true ∨ Clause.sat p c = true := by
  obtain ⟨l', hl', hsat⟩ := Clause.sat_iff_exists.1 h
  rcases ((mem_insert₂_iff l.1 l.2 c l').1 hl').1 with rfl | hmem
  · exact Or.inl hsat
  · exact Or.inr (Clause.sat_iff_exists.2 ⟨l', hmem, hsat⟩)

/-- A unit is false when its literal and the clause to be added are. -/
theorem IsUnit.sat {p : α → Bool} {cₖ c : β} {l : Literal α} (h : IsUnit cₖ c l)
    (hsat : Clause.sat p cₖ = true) : Literal.sat p l = true ∨ Clause.sat p c = true := by
  obtain ⟨l', hl', htrue⟩ := Clause.sat_iff_exists.1 hsat
  by_cases hc : l' ∈ toList c
  · exact Or.inr (Clause.sat_iff_exists.2 ⟨l', hc, htrue⟩)
  · obtain rfl := (h l').1 ⟨hl', hc⟩
    exact Or.inl htrue

/-- Each literal that propagation adds is false where the clause is false. -/
theorem Propagates.sat {p : α → Bool} {f : γ} (hf : Formula.sat p f = true) {c d : β}
    {ks : List κ} (h : Propagates f c ks d) (hd : Clause.sat p d = true) :
    Clause.sat p c = true := by
  induction h with
  | nil => exact hd
  | cons hk hunit _ ih =>
      rcases hunit.sat (Formula.sat_of_lookup hf hk) with hl | hc
      · rcases Clause.sat_of_insert₂ (ih hd) with hneg | hc
        · rw [Literal.sat_neg, hl] at hneg
          exact absurd hneg (by decide)
        · exact hc
      · exact hc

theorem rupSpec_rup : RupSpec (α := α) (rup : γ → List κ → β → Result κ) := by
  intro f c hints h p hf
  obtain ⟨ks, k, ks', d, cₖ, -, hks, hk, hconflict⟩ := rup_eq_iff.1 h
  obtain ⟨l, hl, hsat⟩ := Clause.sat_iff_exists.1 (Formula.sat_of_lookup hf hk)
  exact hks.sat hf (Clause.sat_iff_exists.2 ⟨l, hconflict l hl, hsat⟩)

def rupCheck : γ → List (Action α β κ γ) → Result κ :=
  refute rup (fun _ _ _ _ _ => .noRatSupport) fun f _ => f

def drupCheck : γ → List (Action α β κ γ) → Result κ :=
  refute rup (fun _ _ _ _ _ => .noRatSupport) ksdiff

theorem unsat_of_rupCheck {f : γ} {as : List (Action α β κ γ)} (h : rupCheck f as = .ok) :
    Formula.Unsat (α := α) f := by
  apply unsat_of_refute rupSpec_rup ratSpec_none _ h
  exact fun f hints => List.Subset.refl _

theorem unsat_of_drupCheck {f : γ} {as : List (Action α β κ γ)} (h : drupCheck f as = .ok) :
    Formula.Unsat (α := α) f := by
  apply unsat_of_refute rupSpec_rup ratSpec_none _ h
  exact fun f hints s hs => ((mem_ksdiff_iff f hints s).1 hs).1

/-- The deletion of a clause the proof does not need. -/
theorem unsat_of_drupCheck_unit :
    Formula.Unsat (α := PosNum)
      (ofLists [[⟨1, false⟩], [⟨1, true⟩], [⟨2, true⟩]] : Trie (Trie Bool)) :=
  unsat_of_drupCheck (show drupCheck _
    ([.del 4 (kinsert 1 .nil .nil), .rup 5 .nil [2, 3]] : List DefaultAction) = .ok by decide)

end Rup

/-! ## Texts -/

open Library.Parser

/-- Check the text of a proof against the text of a formula. -/
def rupChecker (buf proof : List Char) : Except (ℕ × List String) (Result PosNum) := do
  let cnf ← run Parser.dimacs buf
  let as ← run Parser.lrat proof
  return rupCheck cnf as

theorem rupChecker_dimacsText {comments : List String} (h : ∀ s ∈ comments, '\n' ∉ s.toList)
    (nbvar : ℕ) (lss : List (List (Literal PosNum))) (proof : List Char) :
    rupChecker (Parser.dimacsText comments nbvar lss.length lss) proof =
      (run Parser.lrat proof).map (rupCheck (ofLists lss)) := by
  unfold rupChecker
  rw [Parser.run_dimacs_of_count h]
  cases run Parser.lrat proof <;> rfl

/-- Whatever the text of the proof, an accepted text of a formula holds lists whose
last literals of each variable no assignment satisfies in all lists. -/
theorem unsat_last_of_rupChecker {comments : List String} (h : ∀ s ∈ comments, '\n' ∉ s.toList)
    {nbvar n : ℕ} {lss : List (List (Literal PosNum))} {proof : List Char}
    (hok : rupChecker (Parser.dimacsText comments nbvar n lss) proof = .ok .ok)
    (p : PosNum → Bool) : ∃ ls ∈ lss, ∀ l, IsLast ls l → Literal.sat p l = false := by
  by_cases hn : lss.length = n
  · subst hn
    rw [rupChecker_dimacsText h] at hok
    cases hproof : run Parser.lrat proof with
    | error e =>
        rw [hproof] at hok
        exact absurd hok (by simp [Except.map])
    | ok as =>
        rw [hproof] at hok
        have hcheck : rupCheck (ofLists lss : Trie (Trie Bool)) as = .ok := Except.ok.inj hok
        have hunsat := unsat_of_rupCheck hcheck p
        by_contra hnone
        have hsat : Formula.sat p (ofLists lss : Trie (Trie Bool)) = true := by
          rw [sat_ofLists_iff]
          intro ls hls
          by_contra hlast
          refine hnone ⟨ls, hls, fun l hl => ?_⟩
          rw [Bool.eq_false_iff]
          exact fun hl' => hlast ⟨l, hl, hl'⟩
        rw [hunsat] at hsat
        exact absurd hsat (by decide)
  · unfold rupChecker at hok
    rw [Parser.run_dimacs_of_miscount h nbvar hn] at hok
    exact absurd hok (by simp [bind, Except.bind])

/-- Whatever the text of the proof, an accepted text of a formula without opposite
literals in a list holds lists that no assignment satisfies together. -/
theorem unsat_of_rupChecker {comments : List String} (h : ∀ s ∈ comments, '\n' ∉ s.toList)
    {nbvar n : ℕ} {lss : List (List (Literal PosNum))} (hopp : ∀ ls ∈ lss, ¬ HasOpposite ls)
    {proof : List Char} (hok : rupChecker (Parser.dimacsText comments nbvar n lss) proof = .ok .ok)
    (p : PosNum → Bool) : ∃ ls ∈ lss, ∀ l ∈ ls, Literal.sat p l = false := by
  obtain ⟨ls, hls, hlast⟩ := unsat_last_of_rupChecker h hok p
  exact ⟨ls, hls, fun l hl => hlast l ((isLast_iff_mem (hopp ls hls)).2 hl)⟩

theorem rupChecker_printed {comments : List String} (h : ∀ s ∈ comments, '\n' ∉ s.toList)
    (nbvar : ℕ) (lss : List (List (Literal PosNum))) (as : List DefaultAction)
    (has : ∀ a ∈ as, a.Printable) :
    rupChecker (Parser.dimacsText comments nbvar lss.length lss)
      ("\n".intercalate (as.map Action.lrat)).toList = .ok (rupCheck (ofLists lss) as) := by
  rw [rupChecker_dimacsText h, Parser.run_lrat_lines, Parser.map_reread_eq_iff.2 has]
  rfl

theorem no_comments : ∀ s ∈ ([] : List String), '\n' ∉ s.toList := by simp

/-- The lists `1` and `-1`, refuted by the line `3 0 1 2 0`. -/
theorem unsat_of_rupChecker_unit :
    ∃ ls ∈ ([[⟨1, false⟩], [⟨1, true⟩]] : List (List (Literal PosNum))),
      ∀ l ∈ ls, Literal.sat (fun _ => true) l = false :=
  unsat_of_rupChecker no_comments (by simp [HasOpposite])
    ((rupChecker_printed no_comments 1 _ [.rup 3 .nil [1, 2]] (by decide)).trans
      (congrArg Except.ok (by decide))) _

/-- With opposite literals in a list the checker accepts a proof although every
list can be satisfied. -/
theorem rupChecker_opposite :
    let lss : List (List (Literal PosNum)) := [[⟨1, false⟩, ⟨1, true⟩], [⟨1, false⟩]]
    (∃ proof, rupChecker (Parser.dimacsText [] 1 2 lss) proof = .ok .ok) ∧
      ∀ ls ∈ lss, ∃ l ∈ ls, Literal.sat (fun _ => true) l = true := by
  refine ⟨?_, by decide⟩
  have hrun := rupChecker_printed no_comments 1 [[⟨1, false⟩, ⟨1, true⟩], [⟨1, false⟩]]
    [.rup 3 .nil [1, 2]] (by decide)
  exact ⟨_, hrun.trans (congrArg Except.ok (by decide))⟩

end Exoverifier.Sat

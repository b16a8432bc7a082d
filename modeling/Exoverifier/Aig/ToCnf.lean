import Exoverifier.Aig.WellFormed
import Exoverifier.Sat.Complete
import Exoverifier.Smt.Reduction

/-! # From graphs to formulas

The translation of `aig/to_cnf.lean`. Every conjunction of the graph gives the
clauses that make its id equivalent to it, and the reference that is asked about
is one more clause. The models of the formula are the evaluations of the graph.
-/

namespace Exoverifier.Aig

open UnorderedMap Library
open Exoverifier.Sat (Clause Formula Literal HasOpposite)

variable {α β γ κ σ : Type}

/-! ## Translation -/

namespace Node

/-- The clauses that make an id equivalent to its node. -/
def toSubformula [Clause α β] [Counter α] (a : α) : Node α → List β
  | .var _ => []
  | .and n₁ b₁ n₂ b₂ =>
      [Clause.ofList [⟨a, true⟩, ⟨n₁, b₁⟩],
        Clause.ofList [⟨a, true⟩, ⟨n₂, b₂⟩],
        Clause.ofList [⟨a, false⟩, ⟨n₁, !b₁⟩, ⟨n₂, !b₂⟩]]

def listToSubformulas [Clause α β] [Counter α] : List (Σ _ : α, Node α) → Option (List β)
  | [] => some []
  | ⟨id, n⟩ :: xs =>
      if n.valid id then (listToSubformulas xs).map fun fs => toSubformula id n ++ fs else none

end Node

/-- The formula that is satisfiable when the reference can be true. -/
def Ref.toCnf [Clause α β] [Formula κ β γ] [DecidableEq κ] [One κ] [Add κ]
    [UnorderedMap α (Node α) σ] [Counter α] (g : σ) : Ref α → Option γ
  | .top => some empty
  | .bot => some (Formula.ofList [empty])
  | .root a b => (Node.listToSubformulas (toList g)).map fun fs =>
      Formula.ofList (Clause.ofList [⟨a, b⟩] :: fs)

/-! ## Evaluations -/

/-- The graph with the given values for its variables and for the ids it lacks. -/
def assign (ν : α → Bool) (g : Graph α) : Graph α := fun a =>
  match g a with
  | some (.and n₁ b₁ n₂ b₂) => some (.and n₁ b₁ n₂ b₂)
  | _ => some (.var (ν a))

/-- Every id has the value that the assignment gives it. -/
def Evaluates (p : α → Bool) (g : Graph α) : Prop := ∀ a, Node.Sat (assign p g) a (p a)

section Assign

variable {g : Graph α} {ν p : α → Bool} {a n₁ n₂ : α} {b b₁ b₂ r : Bool}

theorem assign_and (h : g a = some (.and n₁ b₁ n₂ b₂)) :
    assign ν g a = some (.and n₁ b₁ n₂ b₂) := by
  rw [assign, h]

theorem assign_of_ne_and (h : ∀ n₁ b₁ n₂ b₂, g a ≠ some (.and n₁ b₁ n₂ b₂)) :
    assign ν g a = some (.var (ν a)) := by
  unfold assign
  split
  · rename_i hand
    exact absurd hand (h _ _ _ _)
  · rfl

/-- The values that the graph itself has for its variables. -/
def values (g : Graph α) (a : α) : Bool :=
  match g a with
  | some (.var b) => b
  | _ => false

theorem assign_values {n : Node α} (h : g a = some n) : assign (values g) g a = some n := by
  cases n with
  | var b => rw [assign, values, h]
  | and n₁ b₁ n₂ b₂ => exact assign_and h

/-- A graph whose conjunctions are valid has a value everywhere. -/
theorem exists_sat_assign [Counter α] (hg : ∀ a n, g a = some n → n.valid a = true) (ν : α → Bool)
    (a : α) : ∃ r, Node.Sat (assign ν g) a r := by
  induction a using Counter.strongInductionOn with
  | h a ih =>
      by_cases hand : ∃ n₁ b₁ n₂ b₂, g a = some (.and n₁ b₁ n₂ b₂)
      · obtain ⟨n₁, b₁, n₂, b₂, ha⟩ := hand
        have hvalid := of_decide_eq_true (hg a _ ha)
        obtain ⟨r₁, hr₁⟩ := ih n₁ hvalid.1
        obtain ⟨r₂, hr₂⟩ := ih n₂ (hvalid.2.trans hvalid.1)
        exact ⟨_, .and (assign_and ha) hr₁ hr₂⟩
      · push Not at hand
        exact ⟨_, .var (assign_of_ne_and hand)⟩

/-- Every choice for the variables extends to one evaluation. -/
theorem exists_evaluates [Counter α] (hg : ∀ a n, g a = some n → n.valid a = true)
    (ν : α → Bool) : ∃ p, Evaluates p g ∧ assign p g = assign ν g := by
  choose p hp using exists_sat_assign hg ν
  have hassign : assign p g = assign ν g := by
    funext a
    by_cases hand : ∃ n₁ b₁ n₂ b₂, g a = some (.and n₁ b₁ n₂ b₂)
    · obtain ⟨n₁, b₁, n₂, b₂, ha⟩ := hand
      rw [assign_and ha, assign_and ha]
    · push Not at hand
      rw [assign_of_ne_and hand, assign_of_ne_and hand,
        (Node.sat_var_iff (assign_of_ne_and hand)).1 (hp a)]
  refine ⟨p, ?_, hassign⟩
  intro a
  rw [hassign]
  exact hp a

/-- An assignment is an evaluation when it respects every conjunction. -/
theorem evaluates_iff [Counter α] (hg : ∀ a n, g a = some n → n.valid a = true) :
    Evaluates p g ↔ ∀ a n₁ b₁ n₂ b₂, g a = some (.and n₁ b₁ n₂ b₂) →
      p a = ((b₁ ^^ p n₁) && (b₂ ^^ p n₂)) := by
  constructor
  · intro h a n₁ b₁ n₂ b₂ ha
    exact (h a).unique (.and (assign_and ha) (h n₁) (h n₂))
  · intro h a
    induction a using Counter.strongInductionOn with
    | h a ih =>
        by_cases hand : ∃ n₁ b₁ n₂ b₂, g a = some (.and n₁ b₁ n₂ b₂)
        · obtain ⟨n₁, b₁, n₂, b₂, ha⟩ := hand
          have hvalid := of_decide_eq_true (hg a _ ha)
          rw [h a _ _ _ _ ha]
          exact .and (assign_and ha) (ih n₁ hvalid.1) (ih n₂ (hvalid.2.trans hvalid.1))
        · push Not at hand
          exact .var (assign_of_ne_and hand)

theorem sat_root_iff_of_evaluates (h : Evaluates p g) :
    (Ref.root a b).Sat (assign p g) true ↔ Literal.sat p ⟨a, b⟩ = true := by
  rw [Ref.sat_root_iff, Literal.sat]
  constructor
  · intro hsat
    rw [(h a).unique hsat]
    cases b <;> rfl
  · intro hlit
    have hvalue : p a = (b ^^ true) := by
      cases b <;> cases hp : p a <;> rw [hp] at hlit <;> first | rfl | cases hlit
    rw [← hvalue]
    exact h a

end Assign

/-! ## Clauses -/

/-- The literals of the clauses of a node. -/
def subformulaLists (a : α) : Node α → List (List (Literal α))
  | .var _ => []
  | .and n₁ b₁ n₂ b₂ =>
      [[⟨a, true⟩, ⟨n₁, b₁⟩], [⟨a, true⟩, ⟨n₂, b₂⟩], [⟨a, false⟩, ⟨n₁, !b₁⟩, ⟨n₂, !b₂⟩]]

theorem toSubformula_eq [Clause α β] [Counter α] (a : α) (n : Node α) :
    (n.toSubformula a : List β) = (subformulaLists a n).map Clause.ofList := by
  cases n <;> rfl

/-- The translation succeeds on valid nodes only, and then gives the clauses of all. -/
theorem listToSubformulas_eq_some_iff [Clause α β] [Counter α] {l : List (Σ _ : α, Node α)}
    {fs : List β} : Node.listToSubformulas l = some fs ↔
      (∀ s ∈ l, s.2.valid s.1 = true) ∧
        fs = (l.flatMap fun s => subformulaLists s.1 s.2).map Clause.ofList := by
  induction l generalizing fs with
  | nil =>
      rw [Node.listToSubformulas, Option.some_inj]
      exact ⟨fun h => ⟨nofun, h.symm⟩, fun h => h.2.symm⟩
  | cons s l ih =>
      obtain ⟨id, n⟩ := s
      rw [Node.listToSubformulas, List.forall_mem_cons, List.flatMap_cons, List.map_append,
        ← toSubformula_eq]
      split
      · rename_i hvalid
        rw [Option.map_eq_some_iff]
        constructor
        · rintro ⟨fs', hfs', rfl⟩
          obtain ⟨hl, rfl⟩ := ih.1 hfs'
          exact ⟨⟨hvalid, hl⟩, rfl⟩
        · rintro ⟨⟨-, hl⟩, rfl⟩
          exact ⟨_, ih.2 ⟨hl, rfl⟩, rfl⟩
      · rename_i hvalid
        exact iff_of_false (Option.some_ne_none fs).symm fun h => hvalid h.1.1

section Clauses

variable [Counter α] {a n₁ n₂ : α} {b₁ b₂ : Bool} {p : α → Bool}

/-- The variables of a clause of a valid node are different. -/
theorem not_hasOpposite_subformulaLists {n : Node α} (h : n.valid a = true) :
    ∀ ls ∈ subformulaLists a n, ¬ HasOpposite ls := by
  cases n with
  | var b => exact nofun
  | and n₁ b₁ n₂ b₂ =>
      obtain ⟨h₁, h₂⟩ := of_decide_eq_true h
      have ha₂ := h₂.trans h₁
      intro ls hls hopp
      obtain ⟨v, htrue, hfalse⟩ := hopp
      unfold subformulaLists at hls
      have hne : a ≠ n₁ ∧ a ≠ n₂ ∧ n₁ ≠ n₂ := ⟨h₁.ne', ha₂.ne', h₂.ne'⟩
      grind

omit [Counter α] in
/-- The clauses of a conjunction say that its id has its value. -/
theorem sat_subformulaLists_and_iff :
    (∀ ls ∈ subformulaLists a (.and n₁ b₁ n₂ b₂), ∃ l ∈ ls, Literal.sat p l = true) ↔
      p a = ((b₁ ^^ p n₁) && (b₂ ^^ p n₂)) := by
  unfold subformulaLists Literal.sat
  simp only [List.forall_mem_cons, List.exists_mem_cons_iff]
  cases b₁ <;> cases b₂ <;> cases p a <;> cases p n₁ <;> cases p n₂ <;> simp

end Clauses

/-! ## Formulas -/

section Formulas

variable [Clause α β] [Formula PosNum β γ] [UnorderedMap α (Node α) σ] [Counter α]
variable {g : σ} {f : γ} {x : Ref α} {a : α} {b : Bool} {p : α → Bool}

theorem valid_of_toCnf (h : (Ref.root a b).toCnf g = some f) :
    ∀ a n, Node.interpret g a = some n → n.valid a = true := by
  obtain ⟨fs, hfs, -⟩ := Option.map_eq_some_iff.1 h
  intro a n ha
  exact (listToSubformulas_eq_some_iff.1 hfs).1 ⟨a, n⟩ ((mem_lookup_iff _ _ _).1 ha)

/-- The models of the formula are the evaluations that make the reference true. -/
theorem sat_toCnf_root_iff (h : (Ref.root a b).toCnf g = some f) :
    Formula.sat p f = true ↔ Evaluates p (Node.interpret g) ∧
      (Ref.root a b).Sat (assign p (Node.interpret g)) true := by
  have hvalid := valid_of_toCnf h
  obtain ⟨fs, hfs, rfl⟩ := Option.map_eq_some_iff.1 h
  obtain ⟨hnodes, rfl⟩ := listToSubformulas_eq_some_iff.1 hfs
  have hopposite : ∀ ls ∈ [⟨a, b⟩] :: (toList g).flatMap (fun s => subformulaLists s.1 s.2),
      ¬ HasOpposite ls := by
    rw [List.forall_mem_cons]
    constructor
    · intro ⟨v, htrue, hfalse⟩
      grind
    · intro ls hls
      obtain ⟨s, hs, hls⟩ := List.mem_flatMap.1 hls
      exact not_hasOpposite_subformulaLists (hnodes s hs) ls hls
  have hsat := (Exoverifier.Sat.meansLists_of_not_hasOpposite (γ := γ) hopposite).sat p
  have hands : (∀ ls ∈ (toList g).flatMap (fun s => subformulaLists s.1 s.2),
      ∃ l ∈ ls, Literal.sat p l = true) ↔ Evaluates p (Node.interpret g) := by
    rw [evaluates_iff hvalid]
    constructor
    · intro hall a n₁ b₁ n₂ b₂ ha
      refine sat_subformulaLists_and_iff.1 fun ls hls => ?_
      exact hall ls (List.mem_flatMap.2 ⟨⟨a, _⟩, (mem_lookup_iff _ _ _).1 ha, hls⟩)
    · intro hall ls hls
      obtain ⟨⟨a, n⟩, hs, hls⟩ := List.mem_flatMap.1 hls
      cases n with
      | var b => cases hls
      | and n₁ b₁ n₂ b₂ =>
          have ha := (mem_lookup_iff _ _ _).2 hs
          exact sat_subformulaLists_and_iff.2 (hall a _ _ _ _ ha) ls hls
  have hunit : (∃ l ∈ [(⟨a, b⟩ : Literal α)], Literal.sat p l = true) ↔
      Literal.sat p ⟨a, b⟩ = true := by simp
  refine hsat.trans ?_
  rw [List.forall_mem_cons, hands, hunit, and_comm]
  exact and_congr_right fun heval => (sat_root_iff_of_evaluates heval).symm

/-- The formula is satisfiable exactly when some values of the variables make the
reference true. -/
theorem exists_sat_toCnf_iff (h : x.toCnf g = some f) :
    (∃ p, Formula.sat p f = true) ↔ ∃ ν, x.Sat (assign ν (Node.interpret g)) true := by
  cases x with
  | top =>
      cases h
      refine iff_of_true ⟨fun _ => false, ?_⟩ ⟨fun _ => false, .top⟩
      rw [Formula.sat, empty_eq]
      rfl
  | bot =>
      cases h
      refine iff_of_false ?_ ?_
      · intro hsat
        obtain ⟨p, hp⟩ := hsat
        rw [Formula.sat_iff_forall] at hp
        obtain ⟨k, hk⟩ := (Formula.exists_mem_ofList_iff (γ := γ) [empty] empty).2
          List.mem_cons_self
        have hclause := hp k _ hk
        rw [Clause.sat, empty_eq] at hclause
        cases hclause
      · intro hsat
        obtain ⟨ν, hν⟩ := hsat
        exact Bool.false_ne_true (Ref.sat_bot_iff.1 hν).symm
  | root a b =>
      constructor
      · intro hsat
        obtain ⟨p, hp⟩ := hsat
        exact ⟨p, ((sat_toCnf_root_iff h).1 hp).2⟩
      · intro hsat
        obtain ⟨ν, hν⟩ := hsat
        obtain ⟨p, hp, hassign⟩ := exists_evaluates (valid_of_toCnf h) ν
        rw [← hassign] at hν
        exact ⟨p, (sat_toCnf_root_iff h).2 ⟨hp, hν⟩⟩

/-- What has no model is false for all values of the variables. -/
theorem sat_false_of_unsat (h : x.toCnf g = some f)
    (hf : Formula.Unsat (α := α) f) (ν : α → Bool) :
    x.Sat (assign ν (Node.interpret g)) false := by
  have hvalue : ∃ r, x.Sat (assign ν (Node.interpret g)) r := by
    cases x with
    | top => exact ⟨_, .top⟩
    | bot => exact ⟨_, .bot⟩
    | root a b =>
        obtain ⟨r, hr⟩ := exists_sat_assign (valid_of_toCnf h) ν a
        exact ⟨_, .root hr⟩
  obtain ⟨r, hr⟩ := hvalue
  cases r with
  | false => exact hr
  | true =>
      obtain ⟨p, hp⟩ := (exists_sat_toCnf_iff h).2 ⟨ν, hr⟩
      rw [hf p] at hp
      cases hp

theorem exists_toCnf_eq_some [PerfectHashable α] {g : Factory α σ} (hg : g.Reachable)
    (hx : g.Owns x) : ∃ f : γ, x.toCnf g.nodes = some f := by
  cases x with
  | top => exact ⟨_, rfl⟩
  | bot => exact ⟨_, rfl⟩
  | root a b =>
      have hvalid : ∀ s ∈ toList g.nodes, s.2.valid s.1 = true := by
        intro s hs
        exact hg.wellFormed.valid s.1 s.2 ((mem_lookup_iff _ _ _).2 hs)
      exact ⟨_, Option.map_eq_some_iff.2 ⟨_, listToSubformulas_eq_some_iff.2 ⟨hvalid, rfl⟩, rfl⟩⟩

/-- On every reachable factory the translation succeeds for the references that the
factory owns, and what it gives is satisfiable when the reference can be true. -/
theorem exists_toCnf [PerfectHashable α] {g : Factory α σ} (hg : g.Reachable) (hx : g.Owns x) :
    ∃ f : γ, x.toCnf g.nodes = some f ∧
      ((∃ p, Formula.sat p f = true) ↔ ∃ ν, x.Sat (assign ν (Node.interpret g.nodes)) true) := by
  obtain ⟨f, hf⟩ := exists_toCnf_eq_some (γ := γ) hg hx
  exact ⟨f, hf, exists_sat_toCnf_iff hf⟩

theorem exists_toCnf_andOfVars : ∃ f : Trie (Trie Bool),
    (Ref.root 3 true).toCnf Factory.andOfVars.nodes = some f ∧
      ((∃ p, Formula.sat p f = true) ↔ ∃ ν, (Ref.root 3 true).Sat
        (assign ν (Node.interpret Factory.andOfVars.nodes)) true) := by
  have h : Factory.andOfVars.Reachable :=
    .mkAnd (.mkVar true (.mkVar false .init)) (by decide) (by decide)
  exact exists_toCnf h (by decide)

end Formulas

/-! ## Decisions -/

section Decide

variable [Clause α β] [Formula κ β γ] [DecidableEq κ] [One κ] [Add κ]
variable [UnorderedMap α (Node α) σ] [PerfectHashable α] [Counter α]

/-- A constant is decided without a proof. -/
def decideViaTrivial (x : BRef α) (v : Bool) : Bool :=
  decide (x.1 = .top ∧ v = true) || decide (x.1 = .bot ∧ v = false)

/-- A value is decided when a checked proof refutes the other one. -/
def decideViaToCnf (g : Factory α σ) (x : BRef α) (v : Bool)
    (w : List (Sat.Action α β κ γ)) : Bool :=
  decideViaTrivial x v ||
    match ((bif v then x.1.neg else x.1).toCnf g.nodes : Option γ) with
    | some f => decide (Sat.rupCheck f w = .ok)
    | none => false

end Decide

section Decided

variable [Clause α β] [Formula PosNum β γ]
variable [UnorderedMap α (Node α) σ] [PerfectHashable α] [Counter α]
variable {g : Factory α σ} {x : BRef α} {v : Bool} {w : List (Sat.Action α β PosNum γ)}

variable (γ) in
/-- A constant with its value, or a reference whose other value has no model. -/
def Decided (g : Factory α σ) (x : Ref α) (v : Bool) : Prop :=
  x = .top ∧ v = true ∨ x = .bot ∧ v = false ∨
    ∃ f : γ, (bif v then x.neg else x).toCnf g.nodes = some f ∧ Formula.Unsat (α := α) f

theorem decided_of_decideViaToCnf (h : decideViaToCnf g x v w = true) : Decided γ g x.1 v := by
  unfold decideViaToCnf decideViaTrivial at h
  rw [Bool.or_eq_true, Bool.or_eq_true, decide_eq_true_iff, decide_eq_true_iff] at h
  rcases h with (htop | hbot) | h
  · exact .inl htop
  · exact .inr (.inl hbot)
  · split at h
    · rename_i f hf
      exact .inr (.inr ⟨f, hf, Sat.unsat_of_rupCheck (of_decide_eq_true h)⟩)
    · cases h

/-- Some proof is accepted for everything that is decided. -/
theorem Decided.exists_decideViaToCnf (h : Decided γ g x.1 v) :
    ∃ w : List (Sat.Action α β PosNum γ), decideViaToCnf g x v w = true := by
  rcases h with htop | hbot | ⟨f, hf, hunsat⟩
  · exact ⟨[], by simp [decideViaToCnf, decideViaTrivial, htop]⟩
  · exact ⟨[], by simp [decideViaToCnf, decideViaTrivial, hbot]⟩
  · obtain ⟨w, -, -, hw⟩ := Sat.exists_rupCheck_of_unsat hunsat
    exact ⟨w, by simp [decideViaToCnf, hf, hw]⟩

theorem Decided.sat {x : Ref α} (h : Decided γ g x v) (ν : α → Bool) :
    x.Sat (assign ν (Node.interpret g.nodes)) v := by
  rcases h with ⟨rfl, rfl⟩ | ⟨rfl, rfl⟩ | ⟨f, hf, hunsat⟩
  · exact .top
  · exact .bot
  · have hfalse := sat_false_of_unsat hf hunsat ν
    cases v with
    | false => exact hfalse
    | true =>
        rw [cond_true, Ref.sat_neg_iff] at hfalse
        exact hfalse

/-- What a reachable factory makes true for all values of its variables is decided. -/
theorem decided_of_forall_sat {x : Ref α} (hg : g.Reachable) (hx : g.Owns x)
    (h : ∀ ν, x.Sat (assign ν (Node.interpret g.nodes)) v) : Decided γ g x v := by
  have hother : ∀ ν, (bif v then x.neg else x).Sat (assign ν (Node.interpret g.nodes)) false := by
    intro ν
    cases v with
    | false => exact h ν
    | true =>
        rw [cond_true, Ref.sat_neg_iff]
        exact h ν
  have howns : g.Owns (bif v then x.neg else x) := by
    cases v with
    | false => exact hx
    | true => exact Factory.owns_neg_iff.2 hx
  obtain ⟨f, hf⟩ := exists_toCnf_eq_some (γ := γ) hg howns
  refine .inr (.inr ⟨f, hf, fun p => ?_⟩)
  rw [Bool.eq_false_iff]
  intro hsat
  obtain ⟨ν, hν⟩ := (exists_sat_toCnf_iff hf).1 ⟨p, hsat⟩
  exact Bool.false_ne_true ((hother ν).unique hν)

/-- A decision holds for all values of the variables of the graph. -/
theorem sat_of_decideViaToCnf (h : decideViaToCnf g x v w = true) (ν : α → Bool) :
    x.1.Sat (assign ν (Node.interpret g.nodes)) v :=
  (decided_of_decideViaToCnf h).sat ν

/-- Two variables that are both different and equal; the rules do not see it. -/
def xorAndIff : StateM (Factory PosNum (Trie (Node PosNum))) (Ref PosNum) := do
  let x ← Factory.mkVar true
  let y ← Factory.mkVar false
  let both ← Factory.mkAnd x y
  let neither ← Factory.mkAnd x.neg y.neg
  let xor ← Factory.mkAnd both.neg neither.neg
  let onlyX ← Factory.mkAnd x y.neg
  let onlyY ← Factory.mkAnd x.neg y
  let iff ← Factory.mkAnd onlyX.neg onlyY.neg
  Factory.mkAnd xor iff

/-- The refutation by cases on the first variable. -/
def xorAndIffProof : List Sat.DefaultAction :=
  [.rup 23 (Trie.kinsert 1 true .nil) [22, 6, 5, 8, 10, 17, 13],
    .rup 24 .nil [23, 22, 6, 5, 9, 18, 19, 1]]

/-- The values that the variables had when the graph was built are not those here. -/
theorem sat_of_decideViaToCnf_xorAndIff : (Ref.root 9 false).Sat
    (assign (fun _ => true) (Node.interpret (xorAndIff.run Factory.init).2.nodes)) false := by
  have h : decideViaToCnf (xorAndIff.run Factory.init).2 (.root 9 false, false) false
      xorAndIffProof = true := by decide +kernel
  exact sat_of_decideViaToCnf h fun _ => true

theorem decidesSat_decideViaToCnf : Smt.DecidesSat
    (decideViaToCnf : Factory α σ → BRef α → Bool → List (Sat.Action α β PosNum γ) → Bool) := by
  intro g x v w h y hy
  have hvalue : x.1.Sat (assign (values (Node.interpret g.nodes)) (Node.interpret g.nodes)) y :=
    Ref.Sat.mono (fun _ _ hi => assign_values hi) hy.1
  exact ((decided_of_decideViaToCnf h).sat (values (Node.interpret g.nodes))).unique hvalue

/-- On a reachable factory a value has an accepted proof exactly when the reference
has it for all values of the variables. -/
theorem exists_decideViaToCnf_iff (hg : g.Reachable) (hx : g.Owns x.1) :
    (∃ w : List (Sat.Action α β PosNum γ), decideViaToCnf g x v w = true) ↔
      ∀ ν, x.1.Sat (assign ν (Node.interpret g.nodes)) v := by
  constructor
  · intro h ν
    obtain ⟨w, hw⟩ := h
    exact (decided_of_decideViaToCnf hw).sat ν
  · intro h
    exact (decided_of_forall_sat hg hx h).exists_decideViaToCnf

theorem exists_decideViaToCnf_iff_andOfVars :
    (∃ w : List Sat.DefaultAction,
      decideViaToCnf Factory.andOfVars (.root 3 true, false) true w = true) ↔
      ∀ ν, (Ref.root 3 true).Sat (assign ν (Node.interpret Factory.andOfVars.nodes)) true := by
  have h : Factory.andOfVars.Reachable :=
    .mkAnd (.mkVar true (.mkVar false .init)) (by decide) (by decide)
  exact exists_decideViaToCnf_iff h (by decide)

end Decided

end Exoverifier.Aig

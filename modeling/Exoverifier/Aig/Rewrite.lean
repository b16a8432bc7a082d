import Exoverifier.Aig.Basic

/-! # Two-level rewriting

The optimization rules of `aig/rewrite.lean`. A rule at level 2 returns an
existing subterm; a rule at level 3 or 4 returns two terms for a new conjunction.
A rule looks at the edges of its two terms and of their children only, so it is
checked against the values of edges.
-/

namespace Exoverifier.Aig.Rewrite

/-- An id with its edge and its node. -/
abbrev Term (α : Type) : Type := α × Bool × Node α

/-! ## Values of edges -/

section Edges

variable {α : Type}

/-- The value of an edge, given the values of the nodes. -/
def edge (v : α → Bool) (a : α) (b : Bool) : Bool := b ^^ v a

theorem edge_not (v : α → Bool) (a : α) (b : Bool) : edge v a (!b) = !edge v a b := by
  unfold edge
  cases b <;> simp

theorem edge_of_ne (v : α → Bool) (a : α) {b c : Bool} (h : b ≠ c) :
    edge v a b = !edge v a c := by
  rw [← edge_not, Bool.eq_not_of_ne h]

theorem edge_true (v : α → Bool) (a : α) : edge v a true = !edge v a false := edge_not v a false

/-- The function agrees with a node and is defined at its children. -/
def Term.Holds (D : α → Prop) (v : α → Bool) : Term α → Prop
  | (a, _, .var _) => D a
  | (a, _, .and n₁ b₁ n₂ b₂) =>
      D a ∧ D n₁ ∧ D n₂ ∧ edge v a false = (edge v n₁ b₁ && edge v n₂ b₂)

theorem Term.Holds.defined {D : α → Prop} {v : α → Bool} {t : Term α} (h : t.Holds D v) :
    D t.1 := by
  rcases t with ⟨a, b, _ | _⟩
  · exact h
  · exact h.1

def Val (D : α → Prop) (v : α → Bool) : Ref α → Bool → Prop
  | .top, r => r = true
  | .bot, r => r = false
  | .root a b, r => D a ∧ edge v a b = r

/-- The nodes that have a value. -/
def Defined (g : Graph α) (a : α) : Prop := ∃ r, Node.Sat g a r

open Classical in
/-- The values of a graph, false where there are none. -/
noncomputable def value (g : Graph α) (a : α) : Bool := decide (Node.Sat g a true)

variable {g : Graph α}

theorem sat_iff_value {a : α} {r : Bool} : Node.Sat g a r ↔ Defined g a ∧ value g a = r := by
  have hvalue : ∀ {s}, Node.Sat g a s → value g a = s := by
    intro s hs
    classical
    unfold value
    cases s with
    | true => exact decide_eq_true hs
    | false => exact decide_eq_false fun h => Bool.false_ne_true (hs.unique h)
  constructor
  · exact fun h => ⟨⟨r, h⟩, hvalue h⟩
  · rintro ⟨⟨s, hs⟩, rfl⟩
    rwa [hvalue hs]

theorem sat_iff_val {x : Ref α} {r : Bool} : x.Sat g r ↔ Val (Defined g) (value g) x r := by
  cases x with
  | top => exact Ref.sat_top_iff
  | bot => exact Ref.sat_bot_iff
  | root a b =>
      rw [Ref.sat_root_iff, sat_iff_value, Val, edge]
      refine and_congr_right fun _ => ?_
      cases b <;> cases value g a <;> cases r <;> decide

theorem holds_of_lookup {a : α} {b : Bool} {n : Node α} (hn : g a = some n) (ha : Defined g a) :
    Term.Holds (Defined g) (value g) (a, b, n) := by
  cases n with
  | var c => exact ha
  | and n₁ b₁ n₂ b₂ =>
      obtain ⟨r, hr⟩ := ha
      obtain ⟨r₁, r₂, h₁, h₂, he⟩ := (Node.sat_and_iff hn).1 hr
      refine ⟨⟨r, hr⟩, ⟨r₁, h₁⟩, ⟨r₂, h₂⟩, ?_⟩
      rw [sat_iff_value] at hr h₁ h₂
      unfold edge
      rw [hr.2, h₁.2, h₂.2, he, Bool.false_xor]

end Edges

/-! ## Rules at level 2 -/

structure SubRule (α : Type) where
  run : Term α → Term α → Option (Ref α)
  sat : ∀ {r : Ref α} {g : Graph α} {a₁ a₂ : α} {b₁ b₂ r₁ r₂ : Bool} {n₁ n₂ : Node α},
    run (a₁, b₁, n₁) (a₂, b₂, n₂) = some r → g a₁ = some n₁ → g a₂ = some n₂ →
      (Ref.root a₁ b₁).Sat g r₁ → (Ref.root a₂ b₂).Sat g r₂ → r.Sat g (r₁ && r₂)

namespace SubRule

variable {α : Type}

/-- A rule may be checked on the values of edges. -/
def ofEdges (run : Term α → Term α → Option (Ref α))
    (h : ∀ {D : α → Prop} {v : α → Bool} {r : Ref α} {a₁ a₂ : α} {b₁ b₂ : Bool} {n₁ n₂ : Node α},
      run (a₁, b₁, n₁) (a₂, b₂, n₂) = some r → Term.Holds D v (a₁, b₁, n₁) →
        Term.Holds D v (a₂, b₂, n₂) → Val D v r (edge v a₁ b₁ && edge v a₂ b₂)) :
    SubRule α where
  run := run
  sat {r g a₁ a₂ b₁ b₂ r₁ r₂ n₁ n₂} hrun hn₁ hn₂ h₁ h₂ := by
    rw [sat_iff_val] at h₁ h₂ ⊢
    rw [← h₁.2, ← h₂.2]
    exact h hrun (holds_of_lookup hn₁ h₁.1) (holds_of_lookup hn₂ h₂.1)

/-- Flip a rule using commutativity. -/
def flip (o : SubRule α) : SubRule α where
  run t₁ t₂ := o.run t₂ t₁
  sat hrun hn₁ hn₂ h₁ h₂ := by
    rw [Bool.and_comm]
    exact o.sat hrun hn₂ hn₁ h₂ h₁

/-- The first result of a list of rules. -/
def optimizeWith (t₁ t₂ : Term α) : List (SubRule α) → Option (Ref α)
  | [] => none
  | f :: fs => f.run t₁ t₂ <|> optimizeWith t₁ t₂ fs

theorem sat_optimizeWith {g : Graph α} {a₁ a₂ : α} {b₁ b₂ r₁ r₂ : Bool} {n₁ n₂ : Node α}
    (hn₁ : g a₁ = some n₁) (hn₂ : g a₂ = some n₂) (h₁ : (Ref.root a₁ b₁).Sat g r₁)
    (h₂ : (Ref.root a₂ b₂).Sat g r₂) {r : Ref α} {opts : List (SubRule α)}
    (hrun : optimizeWith (a₁, b₁, n₁) (a₂, b₂, n₂) opts = some r) : r.Sat g (r₁ && r₂) := by
  induction opts with
  | nil => cases hrun
  | cons f fs ih =>
      unfold optimizeWith at hrun
      cases hf : f.run (a₁, b₁, n₁) (a₂, b₂, n₂) with
      | none =>
          rw [hf] at hrun
          exact ih hrun
      | some r' =>
          rw [hf] at hrun
          cases hrun
          exact f.sat hf hn₁ hn₂ h₁ h₂

theorem optimizeWith_eq_none {t₁ t₂ : Term α} {opts : List (SubRule α)} :
    optimizeWith t₁ t₂ opts = none ↔ ∀ f ∈ opts, f.run t₁ t₂ = none := by
  induction opts with
  | nil => simp [optimizeWith]
  | cons f fs ih => simp [optimizeWith, ih, Option.orElse_eq_orElse]

end SubRule

section O2

variable {α : Type} [DecidableEq α]

/-- `(a ∧ b) ∧ c` is false if `a = ¬c` or `b = ¬c`, and `a ∧ b` if `a = c` or `b = c`. -/
def runContradictionAndIdempotence2a : Term α → Term α → Option (Ref α)
  | (a₁, false, .and a₁₁ b₁₁ a₁₂ b₁₂), (a₂, b₂, _) =>
      if a₁₁ = a₂ then some (if b₁₁ = b₂ then .root a₁ false else .bot)
      else if a₁₂ = a₂ then some (if b₁₂ = b₂ then .root a₁ false else .bot)
      else none
  | _, _ => none

def contradictionAndIdempotence2a : SubRule α :=
  .ofEdges runContradictionAndIdempotence2a <| by
    intro D v r a₁ a₂ b₁ b₂ n₁ n₂ h h₁ h₂
    have hd₁ := h₁.defined
    have hd₂ := h₂.defined
    unfold runContradictionAndIdempotence2a at h
    grind [Term.Holds, Val, edge_of_ne, edge_true, edge_not]

/-- `(a ∧ b) ∧ (c ∧ d)` is false if an edge of one is opposite to an edge of the other. -/
def runContradiction2s : Term α → Term α → Option (Ref α)
  | (_, false, .and a₁₁ b₁₁ a₁₂ b₁₂), (_, false, .and a₂₁ b₂₁ a₂₂ b₂₂) =>
      if b₁₁ ≠ b₂₁ ∧ a₁₁ = a₂₁ then some .bot
      else if b₁₁ ≠ b₂₂ ∧ a₁₁ = a₂₂ then some .bot
      else if b₁₂ ≠ b₂₁ ∧ a₁₂ = a₂₁ then some .bot
      else if b₁₂ ≠ b₂₂ ∧ a₁₂ = a₂₂ then some .bot
      else none
  | _, _ => none

def contradiction2s : SubRule α :=
  .ofEdges runContradiction2s <| by
    intro D v r a₁ a₂ b₁ b₂ n₁ n₂ h h₁ h₂
    have hd₁ := h₁.defined
    have hd₂ := h₂.defined
    unfold runContradiction2s at h
    grind [Term.Holds, Val, edge_of_ne, edge_true, edge_not]

/-- `¬(a ∧ b) ∧ c` is `c` if `a = ¬c` or `b = ¬c`. -/
def runSubsumption2a : Term α → Term α → Option (Ref α)
  | (_, true, .and a₁₁ b₁₁ a₁₂ b₁₂), (a₂, b₂, _) =>
      if b₁₁ ≠ b₂ ∧ a₁₁ = a₂ then some (.root a₂ b₂)
      else if b₁₂ ≠ b₂ ∧ a₁₂ = a₂ then some (.root a₂ b₂)
      else none
  | _, _ => none

def subsumption2a : SubRule α :=
  .ofEdges runSubsumption2a <| by
    intro D v r a₁ a₂ b₁ b₂ n₁ n₂ h h₁ h₂
    have hd₁ := h₁.defined
    have hd₂ := h₂.defined
    unfold runSubsumption2a at h
    grind [Term.Holds, Val, edge_of_ne, edge_true, edge_not]

/-- `¬(a ∧ b) ∧ (c ∧ d)` is `c ∧ d` if an edge of one is opposite to an edge of the other. -/
def runSubsumption2s : Term α → Term α → Option (Ref α)
  | (_, true, .and a₁₁ b₁₁ a₁₂ b₁₂), (a₂, false, .and a₂₁ b₂₁ a₂₂ b₂₂) =>
      if b₁₁ ≠ b₂₁ ∧ a₁₁ = a₂₁ then some (.root a₂ false)
      else if b₁₁ ≠ b₂₂ ∧ a₁₁ = a₂₂ then some (.root a₂ false)
      else if b₁₂ ≠ b₂₁ ∧ a₁₂ = a₂₁ then some (.root a₂ false)
      else if b₁₂ ≠ b₂₂ ∧ a₁₂ = a₂₂ then some (.root a₂ false)
      else none
  | _, _ => none

def subsumption2s : SubRule α :=
  .ofEdges runSubsumption2s <| by
    intro D v r a₁ a₂ b₁ b₂ n₁ n₂ h h₁ h₂
    have hd₁ := h₁.defined
    have hd₂ := h₂.defined
    unfold runSubsumption2s at h
    grind [Term.Holds, Val, edge_of_ne, edge_true, edge_not]

/-- `¬(a ∧ b) ∧ ¬(c ∧ d)` is `¬a` if `a` is one of `c`, `d` and `b` is opposite to the other. -/
def runResolution : Term α → Term α → Option (Ref α)
  | (_, true, .and a₁₁ b₁₁ a₁₂ b₁₂), (_, true, .and a₂₁ b₂₁ a₂₂ b₂₂) =>
      if b₁₁ = b₂₁ ∧ b₁₂ ≠ b₂₂ ∧ a₁₁ = a₂₁ ∧ a₁₂ = a₂₂ then some (.root a₁₁ (!b₁₁))
      else if b₁₁ = b₂₂ ∧ b₁₂ ≠ b₂₁ ∧ a₁₁ = a₂₂ ∧ a₁₂ = a₂₁ then some (.root a₁₁ (!b₁₁))
      else if b₁₂ = b₂₁ ∧ b₁₁ ≠ b₂₂ ∧ a₁₂ = a₂₁ ∧ a₁₁ = a₂₂ then some (.root a₁₂ (!b₁₂))
      else if b₁₂ = b₂₂ ∧ b₁₁ ≠ b₂₁ ∧ a₁₂ = a₂₂ ∧ a₁₁ = a₂₁ then some (.root a₁₂ (!b₁₂))
      else none
  | _, _ => none

def resolution : SubRule α :=
  .ofEdges runResolution <| by
    intro D v r a₁ a₂ b₁ b₂ n₁ n₂ h h₁ h₂
    have hd₁ := h₁.defined
    have hd₂ := h₂.defined
    unfold runResolution at h
    grind [Term.Holds, Val, edge_of_ne, edge_true, edge_not]

/-- The rules at level 2, in the order in which they are tried. -/
def subrules : List (SubRule α) :=
  [contradictionAndIdempotence2a, contradictionAndIdempotence2a.flip, contradiction2s,
    subsumption2a, subsumption2a.flip, subsumption2s, subsumption2s.flip, resolution]

end O2

/-! ## Rules at levels 3 and 4 -/

structure NewRule (α : Type) where
  run : Term α → Term α → Graph α → Option (Term α × Term α)
  sat : ∀ {g : Graph α} {a₁ a₂ a₁' a₂' : α} {b₁ b₂ b₁' b₂' r₁ r₂ : Bool} {n₁ n₂ n₁' n₂' : Node α},
    run (a₁, b₁, n₁) (a₂, b₂, n₂) g = some ((a₁', b₁', n₁'), (a₂', b₂', n₂')) →
      g a₁ = some n₁ → g a₂ = some n₂ → (Ref.root a₁ b₁).Sat g r₁ → (Ref.root a₂ b₂).Sat g r₂ →
        g a₁' = some n₁' ∧ g a₂' = some n₂' ∧ ∃ r₁' r₂', (Ref.root a₁' b₁').Sat g r₁' ∧
          (Ref.root a₂' b₂').Sat g r₂' ∧ (r₁ && r₂) = (r₁' && r₂')

namespace NewRule

variable {α : Type}

def ofEdges (run : Term α → Term α → Graph α → Option (Term α × Term α))
    (h : ∀ {D : α → Prop} {v : α → Bool} {g : Graph α} {a₁ a₂ a₁' a₂' : α}
      {b₁ b₂ b₁' b₂' : Bool} {n₁ n₂ n₁' n₂' : Node α},
      run (a₁, b₁, n₁) (a₂, b₂, n₂) g = some ((a₁', b₁', n₁'), (a₂', b₂', n₂')) →
        g a₁ = some n₁ → g a₂ = some n₂ → Term.Holds D v (a₁, b₁, n₁) →
          Term.Holds D v (a₂, b₂, n₂) → (g a₁' = some n₁' ∧ g a₂' = some n₂') ∧ (D a₁' ∧ D a₂') ∧
            (edge v a₁ b₁ && edge v a₂ b₂) = (edge v a₁' b₁' && edge v a₂' b₂')) :
    NewRule α where
  run := run
  sat {g a₁ a₂ a₁' a₂' b₁ b₂ b₁' b₂' r₁ r₂ n₁ n₂ n₁' n₂'} hrun hn₁ hn₂ h₁ h₂ := by
    rw [sat_iff_val] at h₁ h₂
    have hnew := h hrun hn₁ hn₂ (holds_of_lookup hn₁ h₁.1) (holds_of_lookup hn₂ h₂.1)
    refine ⟨hnew.1.1, hnew.1.2, edge (value g) a₁' b₁', edge (value g) a₂' b₂', ?_, ?_, ?_⟩
    · exact sat_iff_val.2 ⟨hnew.2.1.1, rfl⟩
    · exact sat_iff_val.2 ⟨hnew.2.1.2, rfl⟩
    · rw [← h₁.2, ← h₂.2]
      exact hnew.2.2

def flip (o : NewRule α) : NewRule α where
  run t₁ t₂ g := o.run t₂ t₁ g
  sat {_ _ _ _ _ _ _ _ _ r₁ r₂ _ _ _ _} hrun hn₁ hn₂ h₁ h₂ := by
    rw [Bool.and_comm r₁ r₂]
    exact o.sat hrun hn₂ hn₁ h₂ h₁

def optimizeWith (t₁ t₂ : Term α) (g : Graph α) : List (NewRule α) → Option (Term α × Term α)
  | [] => none
  | f :: fs => f.run t₁ t₂ g <|> optimizeWith t₁ t₂ g fs

/-- The first result is the result of a rule before which all others fail. -/
theorem optimizeWith_cons {t₁ t₂ : Term α} {g : Graph α} {f : NewRule α} {fs : List (NewRule α)}
    {t : Term α × Term α} (h : optimizeWith t₁ t₂ g (f :: fs) = some t) :
    f.run t₁ t₂ g = some t ∨ f.run t₁ t₂ g = none ∧ optimizeWith t₁ t₂ g fs = some t := by
  unfold optimizeWith at h
  cases hf : f.run t₁ t₂ g with
  | none =>
      rw [hf] at h
      exact .inr ⟨rfl, h⟩
  | some t' =>
      rw [hf] at h
      exact .inl h

theorem exists_of_optimizeWith {t₁ t₂ : Term α} {g : Graph α} {opts : List (NewRule α)}
    {t : Term α × Term α} (h : optimizeWith t₁ t₂ g opts = some t) :
    ∃ f ∈ opts, f.run t₁ t₂ g = some t := by
  induction opts with
  | nil => cases h
  | cons f fs ih =>
      cases optimizeWith_cons h with
      | inl hf => exact ⟨f, List.mem_cons_self, hf⟩
      | inr hfs =>
          obtain ⟨f', hmem, hf'⟩ := ih hfs.2
          exact ⟨f', List.mem_cons_of_mem _ hmem, hf'⟩

end NewRule

section O34

variable {α : Type} [DecidableEq α]

/-- `¬(a ∧ b) ∧ c` becomes `¬a ∧ c` if `b = c`. -/
def runSubstitution3a : Term α → Term α → Graph α → Option (Term α × Term α)
  | (_, true, .and a₁₁ b₁₁ a₁₂ b₁₂), (a₂, b₂, n₂), g =>
      if b₁₂ = b₂ ∧ a₁₂ = a₂ then do
        let n₁₁ ← g a₁₁
        some ((a₁₁, !b₁₁, n₁₁), (a₂, b₂, n₂))
      else if b₁₁ = b₂ ∧ a₁₁ = a₂ then do
        let n₁₂ ← g a₁₂
        some ((a₁₂, !b₁₂, n₁₂), (a₂, b₂, n₂))
      else none
  | _, _, _ => none

def substitution3a : NewRule α :=
  .ofEdges runSubstitution3a <| by
    intro D v g a₁ a₂ a₁' a₂' b₁ b₂ b₁' b₂' n₁ n₂ n₁' n₂' h hn₁ hn₂ h₁ h₂
    have hd₂ := h₂.defined
    unfold runSubstitution3a at h
    grind [Term.Holds, edge_true, edge_not, Option.bind_eq_some_iff]

/-- `¬(a ∧ b) ∧ (c ∧ d)` becomes `¬a ∧ (c ∧ d)` if `b = c` or `b = d`. -/
def runSubstitution3s : Term α → Term α → Graph α → Option (Term α × Term α)
  | (_, true, .and a₁₁ b₁₁ a₁₂ b₁₂), (a₂, false, .and a₂₁ b₂₁ a₂₂ b₂₂), g =>
      if (b₁₂ = b₂₁ ∧ a₁₂ = a₂₁) ∨ (b₁₂ = b₂₂ ∧ a₁₂ = a₂₂) then do
        let n₁₁ ← g a₁₁
        some ((a₁₁, !b₁₁, n₁₁), (a₂, false, .and a₂₁ b₂₁ a₂₂ b₂₂))
      else if (b₁₁ = b₂₁ ∧ a₁₁ = a₂₁) ∨ (b₁₁ = b₂₂ ∧ a₁₁ = a₂₂) then do
        let n₁₂ ← g a₁₂
        some ((a₁₂, !b₁₂, n₁₂), (a₂, false, .and a₂₁ b₂₁ a₂₂ b₂₂))
      else none
  | _, _, _ => none

def substitution3s : NewRule α :=
  .ofEdges runSubstitution3s <| by
    intro D v g a₁ a₂ a₁' a₂' b₁ b₂ b₁' b₂' n₁ n₂ n₁' n₂' h hn₁ hn₂ h₁ h₂
    unfold runSubstitution3s at h
    split at h
    · split at h
      · grind [Term.Holds, edge_true, edge_not, Option.bind_eq_some_iff]
      · split at h
        · grind [Term.Holds, edge_true, edge_not, Option.bind_eq_some_iff]
        · cases h
    · cases h

/-- `(a ∧ b) ∧ (c ∧ d)` becomes `(a ∧ b) ∧ d` if `c` is `a` or `b`, and `(a ∧ b) ∧ c`
if `d` is `a` or `b`. -/
def runIdempotence4s : Term α → Term α → Graph α → Option (Term α × Term α)
  | (a₁, false, .and a₁₁ b₁₁ a₁₂ b₁₂), (_, false, .and a₂₁ b₂₁ a₂₂ b₂₂), g =>
      if (b₁₁ = b₂₁ ∧ a₁₁ = a₂₁) ∨ (b₁₂ = b₂₁ ∧ a₁₂ = a₂₁) then do
        let n₂₂ ← g a₂₂
        some ((a₁, false, .and a₁₁ b₁₁ a₁₂ b₁₂), (a₂₂, b₂₂, n₂₂))
      else if (b₁₁ = b₂₂ ∧ a₁₁ = a₂₂) ∨ (b₁₂ = b₂₂ ∧ a₁₂ = a₂₂) then do
        let n₂₁ ← g a₂₁
        some ((a₁, false, .and a₁₁ b₁₁ a₁₂ b₁₂), (a₂₁, b₂₁, n₂₁))
      else none
  | _, _, _ => none

def idempotence4s : NewRule α :=
  .ofEdges runIdempotence4s <| by
    intro D v g a₁ a₂ a₁' a₂' b₁ b₂ b₁' b₂' n₁ n₂ n₁' n₂' h hn₁ hn₂ h₁ h₂
    unfold runIdempotence4s at h
    split at h
    · split at h
      · grind [Term.Holds, edge_true, edge_not, Option.bind_eq_some_iff]
      · split at h
        · grind [Term.Holds, edge_true, edge_not, Option.bind_eq_some_iff]
        · cases h
    · cases h

/-- The rules at levels 3 and 4; those at level 3 expect that the others failed. -/
def newrules : List (NewRule α) :=
  [idempotence4s, substitution3a, substitution3a.flip, substitution3s, substitution3s.flip]

end O34

/-! ## The optimizer -/

/-- A subterm, or two terms for a new conjunction. -/
inductive Result (α : Type) where
  | sub (r : Ref α)
  | new (t₁ t₂ : Term α)

section Optimize

variable {α : Type} [DecidableEq α]

/-- Run the rules with a given depth: those at level 2 first, and then again on
what a rule at level 3 or 4 gives. -/
def optimizeWith (g : Graph α) : ℕ → Term α → Term α → Result α
  | 0, t₁, t₂ => .new t₁ t₂
  | n + 1, t₁, t₂ =>
      match SubRule.optimizeWith t₁ t₂ subrules with
      | some r => .sub r
      | none =>
          match NewRule.optimizeWith t₁ t₂ g newrules with
          | some (t₁', t₂') => optimizeWith g n t₁' t₂'
          | none => .new t₁ t₂

def depth : ℕ := 1

def optimize (g : Graph α) : Term α → Term α → Result α := optimizeWith g depth

/-- A result has the value of the conjunction, and its terms are nodes of the graph. -/
def Result.Sound (g : Graph α) (r : Bool) : Result α → Prop
  | .sub x => x.Sat g r
  | .new (a₁, b₁, n₁) (a₂, b₂, n₂) => g a₁ = some n₁ ∧ g a₂ = some n₂ ∧
      ∃ r₁ r₂, (Ref.root a₁ b₁).Sat g r₁ ∧ (Ref.root a₂ b₂).Sat g r₂ ∧ r = (r₁ && r₂)

variable {g : Graph α} {a₁ a₂ a₁₁ a₁₂ : α} {b₁ b₂ b₁₁ b₁₂ r₁ r₂ : Bool} {n₁ n₂ : Node α}

omit [DecidableEq α] in
theorem sat_newrules {t₁ t₂ t₁' t₂' : Term α} {opts : List (NewRule α)}
    (h : NewRule.optimizeWith t₁ t₂ g opts = some (t₁', t₂')) (hn₁ : g t₁.1 = some t₁.2.2)
    (hn₂ : g t₂.1 = some t₂.2.2) (h₁ : (Ref.root t₁.1 t₁.2.1).Sat g r₁)
    (h₂ : (Ref.root t₂.1 t₂.2.1).Sat g r₂) : (Result.new t₁' t₂').Sound g (r₁ && r₂) := by
  obtain ⟨f, -, hf⟩ := NewRule.exists_of_optimizeWith h
  exact f.sat hf hn₁ hn₂ h₁ h₂

theorem sound_optimizeWith (n : ℕ) (hn₁ : g a₁ = some n₁) (hn₂ : g a₂ = some n₂)
    (h₁ : (Ref.root a₁ b₁).Sat g r₁) (h₂ : (Ref.root a₂ b₂).Sat g r₂) :
    (optimizeWith g n (a₁, b₁, n₁) (a₂, b₂, n₂)).Sound g (r₁ && r₂) := by
  induction n generalizing a₁ a₂ b₁ b₂ n₁ n₂ r₁ r₂ with
  | zero => exact ⟨hn₁, hn₂, r₁, r₂, h₁, h₂, rfl⟩
  | succ n ih =>
      unfold optimizeWith
      split
      · rename_i r hr
        exact SubRule.sat_optimizeWith hn₁ hn₂ h₁ h₂ hr
      · split
        · rename_i t₁' t₂' ht
          obtain ⟨hn₁', hn₂', r₁', r₂', h₁', h₂', he⟩ := sat_newrules ht hn₁ hn₂ h₁ h₂
          rw [he]
          exact ih hn₁' hn₂' h₁' h₂'
        · exact ⟨hn₁, hn₂, r₁, r₂, h₁, h₂, rfl⟩

/-! ## Rewritten conjunctions have two different children -/

/-- The children of a conjunction are two different nodes of the graph. -/
def Proper (g : Graph α) : Prop :=
  ∀ a n₁ b₁ n₂ b₂, g a = some (.and n₁ b₁ n₂ b₂) →
    n₁ ≠ n₂ ∧ (g n₁).isSome = true ∧ (g n₂).isSome = true

theorem ne_of_contradiction_none
    (h : runContradictionAndIdempotence2a (a₁, false, .and a₁₁ b₁₁ a₁₂ b₁₂) (a₂, b₂, n₂) = none) :
    a₁₁ ≠ a₂ ∧ a₁₂ ≠ a₂ := by
  unfold runContradictionAndIdempotence2a at h
  grind

/-- A child that is the other term would have been subsumed or substituted. -/
theorem ne_of_substitution_none
    (hsub : runSubsumption2a (a₁, true, .and a₁₁ b₁₁ a₁₂ b₁₂) (a₂, b₂, n₂) = none)
    (hnew : runSubstitution3a (a₁, true, .and a₁₁ b₁₁ a₁₂ b₁₂) (a₂, b₂, n₂) g = none)
    (h₁ : (g a₁₁).isSome = true) (h₂ : (g a₁₂).isSome = true) : a₁₁ ≠ a₂ ∧ a₁₂ ≠ a₂ := by
  obtain ⟨n₁₁, hn₁₁⟩ := Option.isSome_iff_exists.1 h₁
  obtain ⟨n₁₂, hn₁₂⟩ := Option.isSome_iff_exists.1 h₂
  rw [runSubsumption2a] at hsub
  rw [runSubstitution3a, hn₁₁, hn₁₂] at hnew
  grind

theorem idempotence4s_ne {t₁ t₂ t₁' t₂' : Term α}
    (hsub : runContradictionAndIdempotence2a t₂ t₁ = none)
    (h : runIdempotence4s t₁ t₂ g = some (t₁', t₂')) : t₁'.1 ≠ t₂'.1 := by
  unfold runIdempotence4s at h
  split at h
  · have hne := ne_of_contradiction_none hsub
    grind [Option.bind_eq_some_iff]
  · cases h

theorem substitution3a_ne {t₁ t₂ t₁' t₂' : Term α} (hg : Proper g)
    (hn₁ : g t₁.1 = some t₁.2.2) (h : runSubstitution3a t₁ t₂ g = some (t₁', t₂')) :
    t₁'.1 ≠ t₂'.1 := by
  unfold runSubstitution3a at h
  split at h
  · have hne := (hg _ _ _ _ _ hn₁).1
    grind [Option.bind_eq_some_iff]
  · cases h

theorem substitution3s_ne {t₁ t₂ t₁' t₂' : Term α} (hg : Proper g)
    (hn₁ : g t₁.1 = some t₁.2.2) (hsub : runSubsumption2a t₁ t₂ = none)
    (hnew : runSubstitution3a t₁ t₂ g = none)
    (h : runSubstitution3s t₁ t₂ g = some (t₁', t₂')) : t₁'.1 ≠ t₂'.1 := by
  unfold runSubstitution3s at h
  split at h
  · obtain ⟨-, h₁, h₂⟩ := hg _ _ _ _ _ hn₁
    have hne := ne_of_substitution_none hsub hnew h₁ h₂
    grind [Option.bind_eq_some_iff]
  · cases h

/-- The order of the rules matters here: each rule relies on those before it. -/
theorem newrules_ne {t₁ t₂ t₁' t₂' : Term α} (hg : Proper g) (hn₁ : g t₁.1 = some t₁.2.2)
    (hn₂ : g t₂.1 = some t₂.2.2) (hsub : SubRule.optimizeWith t₁ t₂ subrules = none)
    (h : NewRule.optimizeWith t₁ t₂ g newrules = some (t₁', t₂')) : t₁'.1 ≠ t₂'.1 := by
  rw [SubRule.optimizeWith_eq_none] at hsub
  have hcontradiction := hsub contradictionAndIdempotence2a.flip (by simp [subrules])
  have hsubsumption := hsub subsumption2a (by simp [subrules])
  have hsubsumption' := hsub subsumption2a.flip (by simp [subrules])
  rcases NewRule.optimizeWith_cons h with h | ⟨-, h⟩
  · exact idempotence4s_ne hcontradiction h
  rcases NewRule.optimizeWith_cons h with h | ⟨h₁, h⟩
  · exact substitution3a_ne hg hn₁ h
  rcases NewRule.optimizeWith_cons h with h | ⟨h₂, h⟩
  · exact substitution3a_ne hg hn₂ h
  rcases NewRule.optimizeWith_cons h with h | ⟨-, h⟩
  · exact substitution3s_ne hg hn₁ hsubsumption h₁ h
  rcases NewRule.optimizeWith_cons h with h | ⟨-, h⟩
  · exact substitution3s_ne hg hn₂ hsubsumption' h₂ h
  · cases h

theorem optimizeWith_ne (hg : Proper g) (n : ℕ) {t₁ t₂ t₁' t₂' : Term α} (hne : t₁.1 ≠ t₂.1)
    (hn₁ : g t₁.1 = some t₁.2.2) (hn₂ : g t₂.1 = some t₂.2.2)
    (h₁ : Defined g t₁.1) (h₂ : Defined g t₂.1)
    (h : optimizeWith g n t₁ t₂ = .new t₁' t₂') : t₁'.1 ≠ t₂'.1 := by
  induction n generalizing t₁ t₂ with
  | zero =>
      cases h
      exact hne
  | succ n ih =>
      unfold optimizeWith at h
      split at h
      · cases h
      · rename_i hsub
        split at h
        · rename_i s₁ s₂ hs
          obtain ⟨r₁, hr₁⟩ := h₁
          obtain ⟨r₂, hr₂⟩ := h₂
          obtain ⟨hn₁', hn₂', r₁', r₂', h₁', h₂', -⟩ :=
            sat_newrules hs hn₁ hn₂ (.root hr₁) (.root hr₂)
          rw [sat_iff_val] at h₁' h₂'
          exact ih (newrules_ne hg hn₁ hn₂ hsub hs) hn₁' hn₂' h₁'.1 h₂'.1 h
        · cases h
          exact hne

end Optimize

end Exoverifier.Aig.Rewrite

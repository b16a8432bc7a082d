import Mathlib.Logic.Function.Basic
import Exoverifier.Sat.Checker

/-! # Satisfiability by search

The search of `sat/dpll.lean` for a satisfying assignment: literals of unit clauses
are propagated, and an open literal is tried with both signs. The fuel of a search
is the number of literals in its formula. Every propagation of a literal of the
formula removes one, so the fuel lasts until the formula is decided.
-/

namespace Exoverifier

/-! ## Erasing a pair -/

/-- Maps that erase a key only together with a given value. -/
class UnorderedMap.ErasePair (α β : outParam Type) (σ : Type) [UnorderedMap α β σ] where
  erase₂ [DecidableEq α] [DecidableEq β] : σ → α → β → σ
  mem_erase₂_iff [DecidableEq α] [DecidableEq β] : ∀ (m : σ) (a : α) (b : β) (s : Σ _ : α, β),
    s ∈ UnorderedMap.toList (erase₂ m a b) ↔ s ≠ ⟨a, b⟩ ∧ s ∈ UnorderedMap.toList m

namespace Trie

variable {α : Type} [DecidableEq α]

def erase₂ : Trie α → PosNum → α → Trie α
  | nil, _, _ => nil
  | node none l r, .one, _ => node none l r
  | node (some a') l r, .one, a => if a = a' then mk none l r else node (some a') l r
  | node o l r, .bit0 k, a => mk o (l.erase₂ k a) r
  | node o l r, .bit1 k, a => mk o l (r.erase₂ k a)

theorem lookup_erase₂ (k k' : PosNum) (a a' : α) (t : Trie α) :
    lookup k' (erase₂ t k a) = some a' ↔ ¬ (k' = k ∧ a' = a) ∧ lookup k' t = some a' := by
  induction k generalizing k' t with
  | one =>
      rcases t with _ | ⟨_ | b, l, r⟩
      · simp [erase₂, lookup_nil]
      · cases k' <;> simp [erase₂, lookup]
      · by_cases h : a = b
        · cases k' <;> simp [erase₂, h, lookup_mk, lookup, eq_comm]
        · cases k' <;> simp [erase₂, h, lookup]
          rintro rfl heq
          exact h heq.symm
  | bit1 k ih =>
      rcases t with _ | ⟨_ | b, l, r⟩ <;> cases k' <;>
        simp [erase₂, lookup_mk, lookup, ih, lookup_nil]
  | bit0 k ih =>
      rcases t with _ | ⟨_ | b, l, r⟩ <;> cases k' <;>
        simp [erase₂, lookup_mk, lookup, ih, lookup_nil]

theorem mem_erase₂_iff (t : Trie α) (k : PosNum) (a : α) (s : Σ _ : PosNum, α) :
    s ∈ (t.erase₂ k a).toList ↔ s ≠ ⟨k, a⟩ ∧ s ∈ t.toList := by
  obtain ⟨k', a'⟩ := s
  rw [mem_toList_iff, mem_toList_iff, lookup_erase₂, ne_eq, Sigma.mk.injEq, heq_eq_eq]

end Trie

instance {α : Type} : UnorderedMap.ErasePair PosNum α (Trie α) where
  erase₂ := Trie.erase₂
  mem_erase₂_iff := Trie.mem_erase₂_iff

namespace Sat

open UnorderedMap UnorderedMap.ErasePair

variable {α β κ γ : Type}

/-! ## Lists of clauses -/

def ListFormula.sat [Clause α β] (p : α → Bool) (f : List β) : Bool := f.all (Clause.sat p)

theorem ListFormula.sat_iff_forall [Clause α β] {p : α → Bool} {f : List β} :
    ListFormula.sat p f = true ↔ ∀ c ∈ f, Clause.sat p c = true := by
  rw [ListFormula.sat, List.all_eq_true]

theorem Formula.sat_eq_elems [Clause α β] [Formula κ β γ] (p : α → Bool) (f : γ) :
    Formula.sat p f = ListFormula.sat p (elems f) := by
  rw [Bool.eq_iff_iff, Formula.sat_iff_forall, ListFormula.sat_iff_forall]
  simp only [mem_elems_iff]
  constructor
  · rintro h c ⟨k, hk⟩
    exact h k c hk
  · exact fun h k c hk => h c ⟨k, hk⟩

namespace Dpll

section Search

variable [Clause α β]

/-- Find a unit clause in a given formula. -/
def findUnitClause (f : List β) : Option (Literal α) := f.findSome? unsingleton

/-- Choose the first literal of the first clause. -/
def chooseLiteral {f : List β} (h₁ : ¬ f.isEmpty) (h₂ : ¬ (f.find? fun c => null c).isSome) :
    Literal α :=
  have hf : f ≠ [] := fun h => h₁ (List.isEmpty_iff.2 h)
  have hc : toList (f.head hf) ≠ [] := fun h =>
    h₂ (List.find?_isSome.2 ⟨_, List.head_mem hf, (null_iff _).2 h⟩)
  (toList (f.head hf)).head hc

variable [DecidableEq α] [ErasePair α Bool β]

/-- Perform BCP on a given literal: remove the clauses that contain it, and remove
its negation from the others. -/
def bcpOn (l : Literal α) (f : List β) : List β :=
  (f.filter fun c => lookup l.1 c ≠ some l.2).map fun c => erase₂ c l.1 (!l.2)

/-- Perform BCP for a given formula. -/
def bcp : ℕ → List β → List β
  | 0, f => f
  | n + 1, f =>
      match findUnitClause f with
      | none => f
      | some l => bcp n (bcpOn l f)

/-- The core DPLL algorithm, `none` for an unsatisfiable formula. -/
def dpllCore : ℕ → List β → Option Unit
  | 0, _ => some ()
  | n + 1, f =>
      let g := bcp n f
      if h₁ : g.isEmpty then some ()
      else if h₂ : (g.find? fun c => null c).isSome then none
      else
        let l := chooseLiteral h₁ h₂
        dpllCore n (bcpOn l g) <|> dpllCore n (bcpOn l.neg g)

end Search

/-! ## Propagation -/

section Propagation

variable [Clause α β]

theorem exists_unit_of_findUnitClause {f : List β} {l : Literal α}
    (h : findUnitClause f = some l) : ∃ c ∈ f, toList c = [l] := by
  obtain ⟨c, hc, hl⟩ := List.exists_of_findSome?_eq_some h
  exact ⟨c, hc, (unsingleton_iff c l).1 hl⟩

theorem exists_mem_chooseLiteral {f : List β} (h₁ : ¬ f.isEmpty)
    (h₂ : ¬ (f.find? fun c => null c).isSome) : ∃ c ∈ f, chooseLiteral h₁ h₂ ∈ toList c :=
  ⟨_, List.head_mem _, List.head_mem _⟩

variable [DecidableEq α] [ErasePair α Bool β]

theorem mem_bcpOn_iff {l : Literal α} {f : List β} {c : β} :
    c ∈ bcpOn l f ↔ ∃ c' ∈ f, l ∉ toList c' ∧ erase₂ c' l.1 (!l.2) = c := by
  simp only [bcpOn, List.mem_map, List.mem_filter, decide_eq_true_eq, ne_eq, mem_lookup_iff,
    and_assoc]

/-- Where the literal holds, propagation keeps the meaning of the clauses. -/
theorem sat_bcpOn {p : α → Bool} {l : Literal α} (hl : Literal.sat p l = true) (f : List β) :
    ListFormula.sat p (bcpOn l f) = ListFormula.sat p f := by
  have hneg : Literal.sat p l.neg = false := by rw [Literal.sat_neg, hl]; rfl
  rw [Bool.eq_iff_iff, ListFormula.sat_iff_forall, ListFormula.sat_iff_forall]
  constructor
  · intro h c hc
    rw [Clause.sat_iff_exists]
    by_cases hmem : l ∈ toList c
    · exact ⟨l, hmem, hl⟩
    · have herased := h _ (mem_bcpOn_iff.2 ⟨c, hc, hmem, rfl⟩)
      obtain ⟨l', hl', hsat⟩ := Clause.sat_iff_exists.1 herased
      exact ⟨l', ((mem_erase₂_iff c _ _ l').1 hl').2, hsat⟩
  · intro h c hc
    obtain ⟨c', hc', -, rfl⟩ := mem_bcpOn_iff.1 hc
    obtain ⟨l', hl', hsat⟩ := Clause.sat_iff_exists.1 (h c' hc')
    refine Clause.sat_iff_exists.2 ⟨l', (mem_erase₂_iff c' _ _ l').2 ⟨?_, hl'⟩, hsat⟩
    rintro rfl
    exact Bool.false_ne_true (hneg.symm.trans hsat)

/-- Propagation leaves no literal of the variable behind. -/
theorem ne_of_mem_bcpOn {l l' : Literal α} {f : List β} {c : β} (hc : c ∈ bcpOn l f)
    (hl' : l' ∈ toList c) : l'.1 ≠ l.1 := by
  obtain ⟨c', -, hnot, rfl⟩ := mem_bcpOn_iff.1 hc
  obtain ⟨hne, hmem⟩ := (mem_erase₂_iff c' _ _ l').1 hl'
  obtain ⟨a, b⟩ := l
  obtain ⟨a', b'⟩ := l'
  rintro rfl
  cases b <;> cases b' <;> simp_all

/-- A satisfying assignment is left after propagation only if there was one before:
its value for the variable may be changed to that of the literal. -/
theorem sat_update_of_bcpOn {p : α → Bool} {l : Literal α} {f : List β}
    (h : ListFormula.sat p (bcpOn l f) = true) :
    ListFormula.sat (Function.update p l.1 (!l.2)) f = true := by
  have hl : Literal.sat (Function.update p l.1 (!l.2)) l = true := by
    rw [Literal.sat, Function.update_self]
    cases l.2 <;> rfl
  rw [← sat_bcpOn hl, ListFormula.sat_iff_forall]
  intro c hc
  obtain ⟨l', hl', hsat⟩ := Clause.sat_iff_exists.1 (ListFormula.sat_iff_forall.1 h c hc)
  refine Clause.sat_iff_exists.2 ⟨l', hl', ?_⟩
  rwa [Literal.sat, Function.update_of_ne (ne_of_mem_bcpOn hc hl')]

theorem sat_bcp {p : α → Bool} (n : ℕ) {f : List β} (h : ListFormula.sat p f = true) :
    ListFormula.sat p (bcp n f) = true := by
  induction n generalizing f with
  | zero => exact h
  | succ n ih =>
      rw [bcp]
      cases hunit : findUnitClause f with
      | none => exact h
      | some l =>
          obtain ⟨c, hc, heq⟩ := exists_unit_of_findUnitClause hunit
          have hl : Literal.sat p l = true := by
            have hsat := ListFormula.sat_iff_forall.1 h c hc
            rwa [Clause.sat, heq, List.any_cons, List.any_nil, Bool.or_false] at hsat
          exact ih ((sat_bcpOn hl f).trans h)

theorem exists_sat_of_bcp (n : ℕ) {f : List β} (h : ∃ p, ListFormula.sat p (bcp n f) = true) :
    ∃ p, ListFormula.sat p f = true := by
  induction n generalizing f with
  | zero => exact h
  | succ n ih =>
      rw [bcp] at h
      cases hunit : findUnitClause f with
      | none => rwa [hunit] at h
      | some l =>
          rw [hunit] at h
          obtain ⟨p, hp⟩ := ih h
          exact ⟨_, sat_update_of_bcpOn hp⟩

end Propagation

/-! ## Fuel -/

section Fuel

variable [Clause α β]

/-- The number of literals, which is the fuel of a search. -/
def size (f : List β) : ℕ := (f.map fun c => card c).sum

theorem size_cons (c : β) (f : List β) : size (c :: f) = card c + size f := by
  rw [size, List.map_cons, List.sum_cons, size]

theorem card_le_size {c : β} {f : List β} (h : c ∈ f) : card c ≤ size f := by
  induction f with
  | nil => cases h
  | cons c' f ih =>
      rw [size_cons]
      rcases List.mem_cons.1 h with rfl | h
      · exact Nat.le_add_right _ _
      · exact (ih h).trans (Nat.le_add_left _ _)

theorem card_pos {c : β} (h : null c = false) : 0 < card c := by
  rw [card_eq, List.length_pos_iff]
  intro hnil
  rw [(null_iff c).2 hnil] at h
  cases h

/-- A search has fuel when some clause is not empty. -/
theorem size_pos_iff {f : List β} : 0 < size f ↔ ∃ c ∈ f, null c = false := by
  constructor
  · intro h
    by_contra hall
    have hsize : size f = 0 := by
      refine List.sum_eq_zero fun n hn => ?_
      obtain ⟨c, hc, rfl⟩ := List.mem_map.1 hn
      have hnull : null c = true := by
        by_contra hne
        exact hall ⟨c, hc, Bool.eq_false_iff.2 hne⟩
      rw [card_eq, (null_iff c).1 hnull, List.length_nil]
    omega
  · rintro ⟨c, hc, hnull⟩
    exact (card_pos hnull).trans_le (card_le_size hc)

variable [DecidableEq α] [ErasePair α Bool β]

theorem card_erase₂_le (c : β) (a : α) (b : Bool) : card (erase₂ c a b) ≤ card c := by
  rw [card_eq, card_eq]
  exact (List.subperm_of_subset (nodupKeys _).nodup
    fun s hs => ((mem_erase₂_iff c a b s).1 hs).2).length_le

theorem card_erase₂_lt {c : β} {a : α} {b : Bool} (h : ⟨a, b⟩ ∈ toList c) :
    card (erase₂ c a b) < card c := by
  rw [card_eq, card_eq]
  have hsub : (⟨a, b⟩ :: toList (erase₂ c a b)).Subperm (toList c) := by
    refine List.subperm_of_subset (List.nodup_cons.2 ⟨?_, (nodupKeys _).nodup⟩) ?_
    · rw [mem_erase₂_iff]
      exact fun hmem => hmem.1 rfl
    · intro s hs
      rcases List.mem_cons.1 hs with rfl | hs
      · exact h
      · exact ((mem_erase₂_iff c a b s).1 hs).2
  exact hsub.length_le

theorem size_bcpOn_cons (l : Literal α) (c : β) (f : List β) :
    size (bcpOn l (c :: f)) = (if lookup l.1 c = some l.2 then 0 else card (erase₂ c l.1 (!l.2))) +
      size (bcpOn l f) := by
  unfold bcpOn size
  rw [List.filter_cons]
  split <;> simp_all

theorem size_bcpOn_le (l : Literal α) (f : List β) : size (bcpOn l f) ≤ size f := by
  induction f with
  | nil => exact le_refl _
  | cons c f ih =>
      rw [size_bcpOn_cons, size_cons]
      refine Nat.add_le_add ?_ ih
      split
      · exact Nat.zero_le _
      · exact card_erase₂_le c _ _

/-- Propagating a literal whose variable occurs removes a literal. -/
theorem size_bcpOn_lt {l : Literal α} {f : List β} {c : β} (hc : c ∈ f)
    (hl : l.1 ∈ (toList c).keys) : size (bcpOn l f) < size f := by
  induction f with
  | nil => cases hc
  | cons c' f ih =>
      rw [size_bcpOn_cons, size_cons]
      rcases List.mem_cons.1 hc with rfl | hc
      · refine Nat.add_lt_add_of_lt_of_le ?_ (size_bcpOn_le l f)
        obtain ⟨b, hb⟩ := List.exists_of_mem_keys hl
        split
        · rw [card_eq]
          exact List.length_pos_of_mem hb
        · rename_i hne
          rw [mem_lookup_iff] at hne
          obtain rfl : b = !l.2 := Bool.eq_not_iff.2 fun heq => hne (heq ▸ hb)
          exact card_erase₂_lt hb
      · refine Nat.add_lt_add_of_le_of_lt ?_ (ih hc)
        split
        · exact Nat.zero_le _
        · exact card_erase₂_le c' _ _

theorem size_bcp_le (n : ℕ) (f : List β) : size (bcp n f) ≤ size f := by
  induction n generalizing f with
  | zero => exact le_refl _
  | succ n ih =>
      rw [bcp]
      cases findUnitClause f with
      | none => exact le_refl _
      | some l => exact (ih _).trans (size_bcpOn_le l f)

end Fuel

/-! ## The search -/

section Search

variable [Clause α β] [DecidableEq α] [ErasePair α Bool β]

/-- One round of the search, after the units have been propagated. -/
theorem dpllCore_succ (n : ℕ) (f : List β) :
    (bcp n f = [] ∧ dpllCore (n + 1) f = some ()) ∨
    ((∃ c ∈ bcp n f, null c = true) ∧ dpllCore (n + 1) f = none) ∨
    ((∀ c ∈ bcp n f, null c = false) ∧ ∃ l : Literal α, (∃ c ∈ bcp n f, l ∈ toList c) ∧
      dpllCore (n + 1) f =
        (dpllCore n (bcpOn l (bcp n f)) <|> dpllCore n (bcpOn l.neg (bcp n f)))) := by
  rw [dpllCore]
  dsimp only
  split
  · rename_i h₁
    exact .inl ⟨List.isEmpty_iff.1 h₁, rfl⟩
  · rename_i h₁
    split
    · rename_i h₂
      exact .inr (.inl ⟨List.find?_isSome.1 h₂, rfl⟩)
    · rename_i h₂
      refine .inr (.inr ⟨?_, _, exists_mem_chooseLiteral h₁ h₂, rfl⟩)
      intro c hc
      rw [Bool.eq_false_iff]
      exact fun hnull => h₂ (List.find?_isSome.2 ⟨c, hc, hnull⟩)

theorem unsat_of_dpllCore {n : ℕ} {f : List β} (h : dpllCore n f = none) (p : α → Bool) :
    ListFormula.sat p f = false := by
  rw [Bool.eq_false_iff]
  intro hsat
  induction n generalizing f with
  | zero => cases h
  | succ n ih =>
      have hbcp := sat_bcp n hsat
      rcases dpllCore_succ n f with ⟨-, hrun⟩ | ⟨⟨c, hc, hnull⟩, -⟩ | ⟨-, l, -, hrun⟩
      · rw [hrun] at h
        cases h
      · have hclause := ListFormula.sat_iff_forall.1 hbcp c hc
        rw [Clause.not_sat_of_null hnull] at hclause
        cases hclause
      · rw [hrun, Option.orElse_eq_orElse, Option.orElse_eq_or, Option.or_eq_none_iff] at h
        -- One of the two signs holds under the assignment.
        cases hl : Literal.sat p l with
        | true => exact ih h.1 ((sat_bcpOn hl _).trans hbcp)
        | false =>
            have hneg : Literal.sat p l.neg = true := by rw [Literal.sat_neg, hl]; rfl
            exact ih h.2 ((sat_bcpOn hneg _).trans hbcp)

omit [DecidableEq α] [ErasePair α Bool β] in
/-- At most one literal and no empty clause. -/
theorem exists_sat_of_size_le_one {f : List β} (hsize : size f ≤ 1)
    (hnull : ∀ c ∈ f, null c = false) : ∃ p, ListFormula.sat p f = true := by
  cases f with
  | nil => exact ⟨fun _ => false, rfl⟩
  | cons c f =>
      rw [List.forall_mem_cons] at hnull
      have hc := card_pos hnull.1
      have hf : f = [] := by
        refine List.eq_nil_iff_forall_not_mem.2 fun c' hc' => ?_
        have hpos := card_pos (hnull.2 c' hc')
        have hle := card_le_size hc'
        rw [size_cons] at hsize
        omega
      subst hf
      rw [card_eq] at hc
      obtain ⟨l, hl⟩ := List.exists_mem_of_length_pos hc
      refine ⟨fun _ => !l.2, ListFormula.sat_iff_forall.2 ?_⟩
      rw [List.forall_mem_singleton, Clause.sat_iff_exists]
      exact ⟨l, hl, by rw [Literal.sat]; cases l.2 <;> rfl⟩

/-- A search with a fuel of all literals gives up on satisfiable formulas only. -/
theorem exists_sat_of_dpllCore {n : ℕ} {f : List β} (hsize : size f ≤ n) (hn : 0 < n)
    (h : dpllCore n f = some ()) : ∃ p, ListFormula.sat p f = true := by
  induction n generalizing f with
  | zero => cases hn
  | succ n ih =>
      refine exists_sat_of_bcp n ?_
      have hle := size_bcp_le n f
      rcases dpllCore_succ n f with ⟨hnil, -⟩ | ⟨-, hrun⟩ | ⟨hnull, l, ⟨c, hc, hl⟩, hrun⟩
      · rw [hnil]
        exact ⟨fun _ => false, rfl⟩
      · rw [hrun] at h
        cases h
      · rcases Nat.eq_zero_or_pos n with rfl | hn
        · exact exists_sat_of_size_le_one (hle.trans hsize) hnull
        have hkey : l.1 ∈ (toList c).keys := List.mem_keys.2 ⟨l.2, hl⟩
        have hpos : size (bcpOn l (bcp n f)) ≤ n := by
          have hlt := size_bcpOn_lt hc hkey
          omega
        have hneg : size (bcpOn l.neg (bcp n f)) ≤ n := by
          have hlt := size_bcpOn_lt (l := l.neg) hc hkey
          omega
        rw [hrun, Option.orElse_eq_orElse, Option.orElse_eq_or, Option.or_eq_some_iff] at h
        rcases h with h | ⟨-, h⟩
        · obtain ⟨p, hp⟩ := ih hpos hn h
          exact ⟨_, sat_update_of_bcpOn hp⟩
        · obtain ⟨p, hp⟩ := ih hneg hn h
          exact ⟨_, sat_update_of_bcpOn hp⟩

end Search

end Dpll

/-- Perform SAT solving using the DPLL algorithm. -/
def dpll [Clause α β] [Formula κ β γ] [DecidableEq α] [ErasePair α Bool β] (f : γ) : Option Unit :=
  let cs := elems f
  Dpll.dpllCore (cs.map fun c => card c).sum cs

/-- Semidecidability of a formula via DPLL. -/
def decideUnsatViaDpll [Clause α β] [Formula κ β γ] [DecidableEq α] [ErasePair α Bool β]
    (f : γ) : Bool := dpll f = none

section Dpll

variable [Clause α β] [Formula κ β γ] [DecidableEq α] [ErasePair α Bool β]

theorem unsat_of_dpll {f : γ} (h : dpll f = none) : Formula.Unsat (α := α) f := by
  intro p
  rw [Formula.sat_eq_elems]
  exact Dpll.unsat_of_dpllCore h p

/-- The search refutes every unsatisfiable formula, unless all of its clauses are
empty: such a formula has no literals, and a search without fuel refutes nothing. -/
theorem dpll_eq_none_iff (f : γ) :
    dpll f = none ↔ Formula.Unsat (α := α) f ∧ ∃ c ∈ elems f, null c = false := by
  rw [← Dpll.size_pos_iff]
  constructor
  · intro h
    refine ⟨unsat_of_dpll h, Nat.pos_of_ne_zero fun hsize => ?_⟩
    have hrun : Dpll.dpllCore (Dpll.size (elems f)) (elems f) = none := h
    rw [hsize] at hrun
    cases hrun
  · rintro ⟨hunsat, hpos⟩
    cases hrun : dpll f with
    | none => rfl
    | some u =>
        obtain ⟨p, hp⟩ := Dpll.exists_sat_of_dpllCore (le_refl _) hpos hrun
        rw [← Formula.sat_eq_elems, hunsat p] at hp
        cases hp

end Dpll

/-- The formula of `test/sat/dpll.lean`. -/
example : decideUnsatViaDpll (ofLists
    [[⟨1, false⟩, ⟨2, false⟩, ⟨3, true⟩], [⟨1, true⟩, ⟨2, true⟩, ⟨3, false⟩],
      [⟨2, false⟩, ⟨3, false⟩, ⟨4, true⟩], [⟨2, true⟩, ⟨3, true⟩, ⟨4, false⟩],
      [⟨1, true⟩, ⟨3, true⟩, ⟨4, true⟩], [⟨1, false⟩, ⟨3, false⟩, ⟨4, false⟩],
      [⟨1, true⟩, ⟨2, false⟩, ⟨4, false⟩], [⟨1, false⟩, ⟨2, true⟩, ⟨4, true⟩]] :
    Trie (Trie Bool)) = true := by decide +kernel

end Sat

end Exoverifier

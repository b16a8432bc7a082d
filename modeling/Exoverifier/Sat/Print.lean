import Mathlib.Data.List.Sort
import Exoverifier.Sat.Dimacs

/-! # Printed formulas

A formula is printed with its clauses in the order of their ids. The parser gives
the first clause of a text the largest id, so a formula that is printed and parsed
has its clauses in the opposite order, with the same meaning.
-/

namespace Exoverifier.Sat

open UnorderedMap Sat.Parser
open Library.Parser (run)

/-! ## Printing -/

section Print

variable {α β κ γ : Type} [Clause α β] [Formula κ β γ] [CoeHTCT α ℕ]

/-- The largest number of a list, or zero. -/
def maximumOrZero (ls : List ℕ) : ℕ := ls.max?.getD 0

def Clause.nbvar (c : β) : ℕ :=
  maximumOrZero ((toList c : List (Literal α)).keys.map fun a : α => (a : ℕ))

/-- Return the number of variables in a formula. -/
def Formula.nbvar (f : γ) : ℕ := maximumOrZero ((toList f).map fun s => Clause.nbvar s.2)

variable [CoeHTCT κ ℕ]

/-- The clauses of a formula in the order of their ids. -/
def Formula.sorted (f : γ) : List (Σ _ : κ, β) :=
  (toList f).insertionSort fun s₁ s₂ => (s₁.1 : ℕ) ≤ (s₂.1 : ℕ)

/-- Convert a formula to a string in the DIMACS format. -/
def Formula.dimacs (f : γ) : String :=
  "p cnf " ++ Nat.repr (Formula.nbvar f) ++ " " ++ Nat.repr (card f) ++ "\n" ++
    String.join (((Formula.sorted f).map fun s => Clause.dimacs s.2).map fun s => s.push '\n')

theorem le_maximumOrZero {ls : List ℕ} {n : ℕ} (h : n ∈ ls) : n ≤ maximumOrZero ls := by
  unfold maximumOrZero
  cases hmax : ls.max? with
  | none =>
      rw [List.max?_eq_none_iff] at hmax
      subst hmax
      cases h
  | some m => exact (List.max?_eq_some_iff.1 hmax).2 n h

omit [CoeHTCT κ ℕ] in
/-- The problem line of a printed formula counts every variable. -/
theorem Formula.le_nbvar {f : γ} {k : κ} {c : β} {l : Literal α} (hc : ⟨k, c⟩ ∈ toList f)
    (hl : l ∈ toList c) : (l.1 : ℕ) ≤ Formula.nbvar f := by
  have hvar : (l.1 : ℕ) ≤ Clause.nbvar c :=
    le_maximumOrZero (List.mem_map_of_mem (List.mem_keys_of_mem hl))
  have hclause : Clause.nbvar c ∈ (toList f).map fun s => Clause.nbvar s.2 :=
    List.mem_map.2 ⟨⟨k, c⟩, hc, rfl⟩
  exact hvar.trans (le_maximumOrZero hclause)

end Print

/-! ## Printing and parsing -/

section Printed

variable (f : Trie (Trie Bool))

/-- The lists of literals that are printed. -/
def Formula.lines : List (List (Literal PosNum)) := (Formula.sorted f).map fun s => s.2.toList

theorem Formula.length_lines : (Formula.lines f).length = card f := by
  rw [Formula.lines, List.length_map, Formula.sorted, List.length_insertionSort, card_eq]

theorem Formula.toList_dimacs :
    (Formula.dimacs f).toList = dimacsText [] (Formula.nbvar f) (card f) (Formula.lines f) := by
  unfold Formula.dimacs dimacsText problemText Formula.lines
  simp [String.toList_join, List.flatMap_map, toList_clauseDimacs, clauseText]

theorem Formula.sat_lines (p : PosNum → Bool) :
    Formula.sat p (ofLists (Formula.lines f) : Trie (Trie Bool)) = Formula.sat p f := by
  have hmem : ∀ s, s ∈ Formula.sorted f ↔ s ∈ toList f := fun s => List.mem_insertionSort _
  rw [Bool.eq_iff_iff, sat_ofLists_iff, Formula.sat_iff_forall]
  have hlast : ∀ (c : Trie Bool) l, IsLast c.toList l ↔ l ∈ c.toList := fun c _ =>
    isLast_iff_mem (not_hasOpposite_of_nodupKeys c.toList_nodupKeys)
  simp only [Formula.lines, List.forall_mem_map, hmem, hlast]
  constructor
  · intro h k c hc
    exact Clause.sat_iff_exists.2 (h ⟨k, c⟩ hc)
  · rintro h ⟨k, c⟩ hc
    exact Clause.sat_iff_exists.1 (h k c hc)

/-- A printed formula parses to a formula that the same assignments satisfy. -/
theorem run_dimacs_printed : ∃ g : Trie (Trie Bool),
    run dimacs (Formula.dimacs f).toList = .ok g ∧ card g = card f ∧
      ∀ p, Formula.sat p g = Formula.sat p f := by
  refine ⟨ofLists (Formula.lines f), ?_, ?_, Formula.sat_lines f⟩
  · rw [Formula.toList_dimacs, ← Formula.length_lines]
    exact run_dimacs_of_count (by simp) _ _
  · rw [ofLists, Formula.card_ofList, List.length_map, Formula.length_lines]

end Printed

/-! ## The order of clauses -/

section Order

/-- Pairs in the strict order of their ids. -/
def ById (s₁ s₂ : Σ _ : PosNum, Trie Bool) : Prop := (s₁.1 : ℕ) < (s₂.1 : ℕ)

instance : Std.Irrefl ById := ⟨fun s => Nat.lt_irrefl s.1⟩

instance : Std.Antisymm ById := ⟨fun _ _ h h' => absurd h' (Nat.lt_asymm h)⟩

theorem Formula.sorted_pairwise (f : Trie (Trie Bool)) : (Formula.sorted f).Pairwise ById := by
  have hperm := List.perm_insertionSort
    (fun s₁ s₂ : Σ _ : PosNum, Trie Bool => (s₁.1 : ℕ) ≤ (s₂.1 : ℕ)) (toList f)
  have hle : (Formula.sorted f).Pairwise fun s₁ s₂ => (s₁.1 : ℕ) ≤ (s₂.1 : ℕ) := by
    have htotal : Std.Total fun s₁ s₂ : Σ _ : PosNum, Trie Bool => (s₁.1 : ℕ) ≤ (s₂.1 : ℕ) :=
      ⟨fun _ _ => Nat.le_total _ _⟩
    have htrans : IsTrans _ fun s₁ s₂ : Σ _ : PosNum, Trie Bool => (s₁.1 : ℕ) ≤ (s₂.1 : ℕ) :=
      ⟨fun _ _ _ => Nat.le_trans⟩
    exact List.pairwise_insertionSort _ _
  have hne : (Formula.sorted f).Pairwise fun s₁ s₂ => s₁.1 ≠ s₂.1 := by
    have hkeys : (toList f).Pairwise fun s₁ s₂ => s₁.1 ≠ s₂.1 :=
      List.pairwise_map.1 (nodupKeys f)
    exact (hperm.pairwise_iff fun h => h.symm).2 hkeys
  refine (hle.and hne).imp fun h => ?_
  exact lt_of_le_of_ne h.1 fun heq => h.2 (PosNum.to_nat_inj.1 heq)

/-- The ids count the clauses of a list from its end. -/
theorem Formula.sorted_ofList (cs : List (Trie Bool)) :
    Formula.sorted (Formula.ofList cs : Trie (Trie Bool)) =
      cs.reverse.zipIdx.map fun x => ⟨PosNum.ofNatSucc x.2, x.1⟩ := by
  refine (Formula.sorted_pairwise _).eq_of_mem_iff ?_ fun s => ?_
  · rw [List.pairwise_map, List.pairwise_iff_getElem]
    intro i j hi hj hlt
    simp only [ById, List.getElem_zipIdx, toNat_ofNatSucc]
    omega
  · obtain ⟨k, c⟩ := s
    have hmem : ⟨k, c⟩ ∈ Formula.sorted (Formula.ofList cs : Trie (Trie Bool)) ↔
        cs.reverse[(k : ℕ) - 1]? = some c := by
      rw [← Formula.lookup_ofList (γ := Trie (Trie Bool)), mem_lookup_iff]
      exact List.mem_insertionSort _
    rw [hmem, List.mem_map]
    constructor
    · intro h
      refine ⟨(c, (k : ℕ) - 1), List.mem_zipIdx_iff_getElem?.2 h, ?_⟩
      have hk : PosNum.ofNatSucc ((k : ℕ) - 1) = k := by
        rw [← PosNum.to_nat_inj, toNat_ofNatSucc]
        exact Nat.succ_pred_eq_of_pos (PosNum.to_nat_pos k)
      rw [hk]
    · rintro ⟨⟨c', i⟩, hx, heq⟩
      cases heq
      rw [toNat_ofNatSucc, Nat.add_sub_cancel]
      exact List.mem_zipIdx_iff_getElem?.1 hx

/-- Printing and parsing turns the order of the clauses around. -/
theorem run_dimacs_printed_ofLists (lss : List (List (Literal PosNum))) :
    run dimacs (Formula.dimacs (ofLists lss : Trie (Trie Bool))).toList =
      .ok (ofLists lss.reverse) := by
  have hclause : ∀ ls, (Clause.ofList (Clause.ofList ls : Trie Bool).toList : Trie Bool) =
      Clause.ofList ls := fun ls => Clause.ofList_eq (Clause.ofList_canonical ls) fun _ => Iff.rfl
  have hlines : Formula.lines (ofLists lss : Trie (Trie Bool)) =
      lss.reverse.map fun ls => (Clause.ofList ls : Trie Bool).toList := by
    rw [Formula.lines, ofLists, Formula.sorted_ofList, List.map_map]
    calc (lss.map Clause.ofList).reverse.zipIdx.map (fun x => Trie.toList x.1)
        = ((lss.map Clause.ofList).reverse.zipIdx.map Prod.fst).map Trie.toList := by
          rw [List.map_map]; rfl
      _ = lss.reverse.map fun ls => (Clause.ofList ls : Trie Bool).toList := by
          rw [List.zipIdx_map_fst, ← List.map_reverse, List.map_map]; rfl
  rw [Formula.toList_dimacs, ← Formula.length_lines, run_dimacs_of_count (by simp), hlines, ofLists,
    ofLists, List.map_map]
  congr 3
  funext ls
  exact hclause ls

example : Formula.dimacs (ofLists [[⟨1, false⟩, ⟨2, true⟩], [⟨1, true⟩]] : Trie (Trie Bool)) =
    "p cnf 2 2\n-1 0\n1 -2 0\n" := by decide +kernel

end Order

end Exoverifier.Sat

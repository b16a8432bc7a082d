import Mathlib.Data.Num.Lemmas
import Exoverifier.Data.Trie

/-! # Formulas in conjunctive normal form

Clauses map variables to signs, and formulas map ids to clauses. Building either
from a list inserts the pairs from the last one on and never replaces a pair, so
a clause keeps, for each variable, the sign of its last literal.
-/

namespace Exoverifier.Sat

open UnorderedMap

/-- A variable and its sign, `true` for a negated variable. -/
abbrev Literal (α : Type) : Type := Σ _ : α, Bool

class Clause (α : outParam Type) (β : Type) extends UnorderedMap α Bool β

class Formula (κ β : outParam Type) (γ : Type) extends UnorderedMap κ β γ

instance : Clause PosNum (Trie Bool) where

instance : Formula PosNum (Trie Bool) (Trie (Trie Bool)) where

variable {α β κ γ : Type}

/-! ## Satisfaction -/

def Literal.sat (p : α → Bool) (l : Literal α) : Bool := p l.1 ^^ l.2

def Clause.sat [Clause α β] (p : α → Bool) (c : β) : Bool := (toList c).any (Literal.sat p)

def Formula.sat [Clause α β] [Formula κ β γ] (p : α → Bool) (f : γ) : Bool :=
  (toList f).all fun s => Clause.sat p s.2

/-! ## Printing -/

def Literal.dimacs [CoeHTCT α ℕ] (l : Literal α) : String :=
  (bif l.2 then "-" else "") ++ Nat.repr (l.1 : ℕ)

def Clause.dimacs [CoeHTCT α ℕ] [Clause α β] (c : β) : String :=
  String.join ((toList c).map fun l => Literal.dimacs l ++ " ") ++ "0"

/-! ## Construction from lists -/

def Clause.ofList [Clause α β] [DecidableEq α] (ls : List (Literal α)) : β :=
  ls.foldr (fun l c => kinsert l.1 l.2 c) empty

def Formula.ofList [Formula κ β γ] [DecidableEq κ] [One κ] [Add κ] (cs : List β) : γ :=
  (cs.foldr (fun c (p : γ × κ) => (kinsert p.2 c p.1, p.2 + 1)) (empty, 1)).1

theorem Clause.sat_iff_exists [Clause α β] {p : α → Bool} {c : β} :
    Clause.sat p c = true ↔ ∃ l ∈ toList c, Literal.sat p l = true := by
  rw [Clause.sat, List.any_eq_true]

theorem Formula.sat_iff_forall [Clause α β] [Formula κ β γ] {p : α → Bool} {f : γ} :
    Formula.sat p f = true ↔ ∀ k c, ⟨k, c⟩ ∈ toList f → Clause.sat p c = true := by
  rw [Formula.sat, List.all_eq_true]
  exact ⟨fun h k c hmem => h ⟨k, c⟩ hmem, fun h s hs => h s.1 s.2 hs⟩

/-! ## Clauses of lists -/

/-- The last literal of its variable. -/
def IsLast (ls : List (Literal α)) (l : Literal α) : Prop :=
  ∃ before after, ls = before ++ l :: after ∧ l.1 ∉ after.keys

theorem isLast_cons {hd l : Literal α} {tl : List (Literal α)} :
    IsLast (hd :: tl) l ↔ IsLast tl l ∨ hd.1 ∉ tl.keys ∧ l = hd := by
  constructor
  · rintro ⟨before, after, heq, hnew⟩
    cases before with
    | nil =>
        obtain ⟨rfl, rfl⟩ := List.cons.inj heq
        exact Or.inr ⟨hnew, rfl⟩
    | cons b before =>
        obtain ⟨-, rfl⟩ := List.cons.inj heq
        exact Or.inl ⟨before, after, rfl, hnew⟩
  · rintro (⟨before, after, rfl, hnew⟩ | ⟨hnew, rfl⟩)
    · exact ⟨hd :: before, after, rfl, hnew⟩
    · exact ⟨[], tl, rfl, hnew⟩

theorem IsLast.mem {ls : List (Literal α)} {l : Literal α} (h : IsLast ls l) : l ∈ ls := by
  obtain ⟨before, after, rfl, -⟩ := h
  simp

/-- Every variable of a list has a last literal. -/
theorem exists_isLast {ls : List (Literal α)} {a : α} (h : a ∈ ls.keys) :
    ∃ b, IsLast ls ⟨a, b⟩ := by
  induction ls with
  | nil => simp at h
  | cons hd tl ih =>
      by_cases htl : a ∈ tl.keys
      · obtain ⟨b, hb⟩ := ih htl
        exact ⟨b, isLast_cons.2 (Or.inl hb)⟩
      · rw [List.keys_cons, List.mem_cons] at h
        obtain rfl := h.resolve_right htl
        exact ⟨hd.2, isLast_cons.2 (Or.inr ⟨htl, rfl⟩)⟩

section ClauseOfList

variable [Clause α β] [DecidableEq α]

theorem Clause.mem_ofList_iff {ls : List (Literal α)} {l : Literal α} :
    l ∈ toList (Clause.ofList ls : β) ↔ IsLast ls l := by
  induction ls generalizing l with
  | nil =>
      rw [Clause.ofList, List.foldr_nil, empty_eq]
      simp [IsLast]
  | cons hd tl ih =>
      have hkeys : hd.1 ∈ (toList (Clause.ofList tl : β)).keys ↔ hd.1 ∈ tl.keys := by
        constructor
        · intro h
          obtain ⟨b, hb⟩ := List.exists_of_mem_keys h
          exact List.mem_keys.2 ⟨b, (ih.1 hb).mem⟩
        · intro h
          obtain ⟨b, hb⟩ := exists_isLast h
          exact List.mem_keys.2 ⟨b, ih.2 hb⟩
      have hcons : (Clause.ofList (hd :: tl) : β) = kinsert hd.1 hd.2 (Clause.ofList tl : β) := rfl
      rw [hcons, mem_kinsert_iff, ih, hkeys, isLast_cons]

theorem Clause.sat_ofList_iff {p : α → Bool} {ls : List (Literal α)} :
    Clause.sat p (Clause.ofList ls : β) = true ↔ ∃ l, IsLast ls l ∧ Literal.sat p l = true := by
  simp only [Clause.sat_iff_exists, Clause.mem_ofList_iff]

end ClauseOfList

/-! ## Formulas of lists -/

section FormulaOfList

variable [Formula PosNum β γ]

theorem Formula.ofList_cons (c : β) (cs : List β) :
    ∃ k : PosNum, (k : ℕ) = cs.length + 1 ∧
      (Formula.ofList (c :: cs) : γ) = kinsert k c (Formula.ofList cs : γ) := by
  have hid : ∀ cs : List β, ((cs.foldr (fun c (p : γ × PosNum) =>
      (kinsert p.2 c p.1, p.2 + 1)) (empty, 1)).2 : ℕ) = cs.length + 1 := by
    intro cs
    induction cs with
    | nil => rfl
    | cons c cs ih =>
        rw [List.foldr_cons, List.length_cons, ← ih, PosNum.add_to_nat]
        rfl
  exact ⟨_, hid cs, rfl⟩

/-- The ids run from the last clause of the list to the first. -/
theorem Formula.lookup_ofList (cs : List β) (k : PosNum) :
    lookup k (Formula.ofList cs : γ) = cs.reverse[(k : ℕ) - 1]? := by
  have hpos := PosNum.to_nat_pos k
  induction cs with
  | nil =>
      rw [List.reverse_nil, List.getElem?_nil, lookup_eq_none_iff, Formula.ofList, List.foldr_nil,
        empty_eq]
      simp
  | cons c cs ih =>
      obtain ⟨k', hk', heq⟩ := Formula.ofList_cons (γ := γ) c cs
      rw [heq, lookup_kinsert, ih, List.reverse_cons]
      by_cases h : k = k'
      · subst h
        rw [if_pos rfl, hk']
        simp
      · have hne : (k : ℕ) ≠ cs.length + 1 := by
          rw [← hk']
          exact fun hcast => h (PosNum.to_nat_inj.1 hcast)
        rw [if_neg h, List.getElem?_append]
        split
        · rfl
        · rename_i hge
          rw [List.length_reverse] at hge
          rw [List.getElem?_eq_none (by rw [List.length_reverse]; omega),
            List.getElem?_eq_none (by rw [List.length_singleton, List.length_reverse]; omega)]

theorem Formula.card_ofList (cs : List β) : card (Formula.ofList cs : γ) = cs.length := by
  induction cs with
  | nil =>
      rw [Formula.ofList, List.foldr_nil, card_eq, empty_eq, List.length_nil, List.length_nil]
  | cons c cs ih =>
      obtain ⟨k, hk, heq⟩ := Formula.ofList_cons (γ := γ) c cs
      have hnew : k ∉ (toList (Formula.ofList cs : γ)).keys := by
        rw [← lookup_eq_none_iff, Formula.lookup_ofList, hk, Nat.add_sub_cancel]
        exact List.getElem?_eq_none (by rw [List.length_reverse])
      rw [heq, card_kinsert hnew, ih, List.length_cons]

theorem toNat_ofNatSucc (n : ℕ) : (PosNum.ofNatSucc n : ℕ) = n + 1 := by
  induction n with
  | zero => rfl
  | succ n ih => rw [PosNum.ofNatSucc, PosNum.succ_to_nat, ih]

/-- Every clause of the list has an id, and every id a clause of the list. -/
theorem Formula.exists_mem_ofList_iff (cs : List β) (c : β) :
    (∃ k, ⟨k, c⟩ ∈ toList (Formula.ofList cs : γ)) ↔ c ∈ cs := by
  simp only [← mem_lookup_iff, Formula.lookup_ofList]
  rw [← List.mem_reverse, List.mem_iff_getElem?]
  constructor
  · rintro ⟨k, hk⟩
    exact ⟨_, hk⟩
  · rintro ⟨i, hi⟩
    refine ⟨PosNum.ofNatSucc i, ?_⟩
    rwa [toNat_ofNatSucc, Nat.add_sub_cancel]

end FormulaOfList

/-! ## The meaning of lists of literals -/

/-- A list that holds a variable with both signs. -/
def HasOpposite (ls : List (Literal α)) : Prop := ∃ a, ⟨a, true⟩ ∈ ls ∧ ⟨a, false⟩ ∈ ls

theorem exists_sat_of_hasOpposite {ls : List (Literal α)} (h : HasOpposite ls) (p : α → Bool) :
    ∃ l ∈ ls, Literal.sat p l = true := by
  obtain ⟨a, hneg, hpos⟩ := h
  cases hp : p a with
  | true => exact ⟨_, hpos, by rw [Literal.sat, hp]; rfl⟩
  | false => exact ⟨_, hneg, by rw [Literal.sat, hp]; rfl⟩

/-- Without opposite literals every literal has the sign of the last one. -/
theorem isLast_iff_mem {ls : List (Literal α)} (h : ¬ HasOpposite ls) {l : Literal α} :
    IsLast ls l ↔ l ∈ ls := by
  refine ⟨IsLast.mem, fun hmem => ?_⟩
  obtain ⟨a, b⟩ := l
  obtain ⟨b', hlast⟩ := exists_isLast (List.mem_keys.2 ⟨b, hmem⟩)
  have heq : b = b' := by
    by_contra hne
    refine h ⟨a, ?_⟩
    have hmem' := hlast.mem
    cases b <;> cases b' <;> simp_all
  rwa [heq]

theorem not_hasOpposite_of_nodupKeys {ls : List (Literal α)} (h : ls.NodupKeys) :
    ¬ HasOpposite ls := by
  rintro ⟨a, htrue, hfalse⟩
  exact absurd (h.eq_of_mk_mem htrue hfalse) (by decide)

/-- The formula of a list of lists of literals, as the DIMACS parser builds it. -/
def ofLists [Clause α β] [Formula PosNum β γ] [DecidableEq α] (lss : List (List (Literal α))) : γ :=
  Formula.ofList (lss.map Clause.ofList)

/-- The formula has one clause for each list, under the ids from one up to the
number of lists, and is satisfied by the assignments that satisfy some literal
of every list. -/
structure MeansLists [Clause α β] [Formula PosNum β γ] [DecidableEq α]
    (lss : List (List (Literal α))) (f : γ) : Prop where
  clauses : ∀ k : PosNum, lookup k f = (lss.map Clause.ofList).reverse[(k : ℕ) - 1]?
  card : card f = lss.length
  sat : ∀ p, Formula.sat p f = true ↔ ∀ ls ∈ lss, ∃ l ∈ ls, Literal.sat p l = true

/-- An assignment that satisfies the lists without opposite literals satisfies,
in each list with opposite literals, some literal that is the last of its variable. -/
def OppositesSettled (lss : List (List (Literal α))) : Prop :=
  ∀ p : α → Bool, (∀ ls ∈ lss, ¬ HasOpposite ls → ∃ l ∈ ls, Literal.sat p l = true) →
    ∀ ls ∈ lss, HasOpposite ls → ∃ l, IsLast ls l ∧ Literal.sat p l = true

section OfLists

variable [Clause α β] [Formula PosNum β γ] [DecidableEq α]

theorem sat_ofLists_iff (p : α → Bool) (lss : List (List (Literal α))) :
    Formula.sat p (ofLists lss : γ) = true ↔
      ∀ ls ∈ lss, ∃ l, IsLast ls l ∧ Literal.sat p l = true := by
  rw [Formula.sat_iff_forall]
  constructor
  · intro h ls hls
    obtain ⟨k, hk⟩ := (Formula.exists_mem_ofList_iff (γ := γ) _ _).2 (List.mem_map_of_mem hls)
    exact Clause.sat_ofList_iff.1 (h k _ hk)
  · intro h k c hkc
    obtain ⟨ls, hls, rfl⟩ := List.mem_map.1 ((Formula.exists_mem_ofList_iff (γ := γ) _ _).1 ⟨k, hkc⟩)
    exact Clause.sat_ofList_iff.2 (h ls hls)

/-- Whatever the lists, the formula has one clause for each list, under ids that count
from the last list to the first. A clause holds the last literal of each variable. -/
theorem ofLists_exact (lss : List (List (Literal α))) :
    card (ofLists lss : γ) = lss.length ∧
      (∀ k : PosNum, lookup k (ofLists lss : γ) = lss.reverse[(k : ℕ) - 1]?.map Clause.ofList) ∧
      (∀ ls l, l ∈ toList (Clause.ofList ls : β) ↔ IsLast ls l) ∧
      ∀ p, Formula.sat p (ofLists lss : γ) = true ↔
        ∀ ls ∈ lss, ∃ l, IsLast ls l ∧ Literal.sat p l = true := by
  refine ⟨?_, fun k => ?_, fun ls l => Clause.mem_ofList_iff, fun p => sat_ofLists_iff p lss⟩
  · rw [ofLists, Formula.card_ofList, List.length_map]
  · rw [ofLists, Formula.lookup_ofList, ← List.map_reverse, List.getElem?_map]

theorem settled_of_meansLists {lss : List (List (Literal α))}
    (h : MeansLists lss (ofLists lss : γ)) : OppositesSettled lss := by
  intro p hp ls hls hopp
  have hall : ∀ ls ∈ lss, ∃ l ∈ ls, Literal.sat p l = true := by
    intro ls' hls'
    by_cases hopp' : HasOpposite ls'
    · exact exists_sat_of_hasOpposite hopp' p
    · exact hp ls' hls' hopp'
  exact (sat_ofLists_iff p lss).1 ((h.sat p).2 hall) ls hls

theorem meansLists_of_settled {lss : List (List (Literal α))} (h : OppositesSettled lss) :
    MeansLists lss (ofLists lss : γ) := by
  refine ⟨fun k => Formula.lookup_ofList _ k, ?_, fun p => ?_⟩
  · rw [ofLists, Formula.card_ofList, List.length_map]
  · rw [sat_ofLists_iff]
    constructor
    · intro hlast ls hls
      obtain ⟨l, hl, hsat⟩ := hlast ls hls
      exact ⟨l, hl.mem, hsat⟩
    · intro hall ls hls
      by_cases hopp : HasOpposite ls
      · exact h p (fun ls' hls' _ => hall ls' hls') ls hls hopp
      · obtain ⟨l, hl, hsat⟩ := hall ls hls
        exact ⟨l, (isLast_iff_mem hopp).2 hl, hsat⟩

/-- Building a formula keeps the meaning of its lists exactly when the literals
that are lost from the lists with opposite literals do not matter. -/
theorem meansLists_iff (lss : List (List (Literal α))) :
    MeansLists lss (ofLists lss : γ) ↔ OppositesSettled lss :=
  ⟨settled_of_meansLists, meansLists_of_settled⟩

theorem meansLists_of_not_hasOpposite {lss : List (List (Literal α))}
    (h : ∀ ls ∈ lss, ¬ HasOpposite ls) : MeansLists lss (ofLists lss : γ) :=
  meansLists_of_settled fun _ _ ls hls hopp => absurd hopp (h ls hls)

/-- Some assignment falsifies a clause, because it holds one sign for each variable. -/
theorem Clause.exists_not_sat (c : β) : ∃ p : α → Bool, Clause.sat p c = false := by
  classical
  refine ⟨fun a => decide (⟨a, true⟩ ∈ toList c), ?_⟩
  rw [Clause.sat, List.any_eq_false]
  rintro ⟨a, b⟩ hmem
  cases b with
  | true => simp [Literal.sat, hmem]
  | false =>
      have hnot : (⟨a, true⟩ : Literal α) ∉ toList c := fun h =>
        absurd ((nodupKeys c).eq_of_mk_mem hmem h) (by decide)
      simp [Literal.sat, hnot]

/-- A single list keeps its meaning exactly when it has no opposite literals. -/
theorem meansLists_singleton_iff (ls : List (Literal α)) :
    MeansLists [ls] (ofLists [ls] : γ) ↔ ¬ HasOpposite ls := by
  constructor
  · intro h hopp
    obtain ⟨p, hp⟩ := Clause.exists_not_sat (Clause.ofList ls : β)
    obtain ⟨l, hl, hsat⟩ := settled_of_meansLists h p (by simp [hopp]) ls (by simp) hopp
    have hclause := Clause.sat_ofList_iff (β := β).2 ⟨l, hl, hsat⟩
    exact absurd (hp.symm.trans hclause) (by decide)
  · intro h
    exact meansLists_of_not_hasOpposite (by simpa using h)

/-- A list with opposite literals always holds, the clause built from it does not. -/
theorem not_meansLists_opposite :
    ¬ MeansLists [[⟨1, false⟩, ⟨1, true⟩]] (ofLists [[⟨1, false⟩, ⟨1, true⟩]] : Trie (Trie Bool)) := by
  intro h
  exact absurd ((h.sat fun _ => true).2 (by decide)) (by decide)

end OfLists

end Exoverifier.Sat

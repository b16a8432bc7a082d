import Exoverifier.Aig.ToCnf
import Exoverifier.Smt.Erasure

/-! # Graphs without the values of their variables

The factory of graphs never looks at the value of a variable: the rules, the cache
and the translation to formulas are the same for two graphs that differ in these
values only.
-/

namespace Exoverifier

/-! ## Tries -/

namespace Trie

variable {α β : Type}

def map (f : α → β) : Trie α → Trie β
  | nil => nil
  | node o l r => node (o.map f) (l.map f) (r.map f)

theorem lookup_map (f : α → β) (k : PosNum) (t : Trie α) :
    lookup k (t.map f) = (lookup k t).map f := by
  induction k generalizing t with
  | one => cases t <;> rfl
  | bit0 k ih =>
      cases t with
      | nil => rfl
      | node o l r => exact ih l
  | bit1 k ih =>
      cases t with
      | nil => rfl
      | node o l r => exact ih r

/-- What an insertion keeps of an old value does not depend on the values. -/
theorem map_kinsert (f : α → β) (k : PosNum) (a : α) (t : Trie α) :
    (kinsert k a t).map f = kinsert k (f a) (t.map f) := by
  unfold kinsert
  induction k generalizing t with
  | one => rcases t with _ | ⟨_ | a', l, r⟩ <;> rfl
  | bit0 k ih => rcases t with _ | ⟨o, l, r⟩ <;> simp [insertWith, map, ih]
  | bit1 k ih => rcases t with _ | ⟨o, l, r⟩ <;> simp [insertWith, map, ih]

theorem toList_map (f : α → β) (t : Trie α) :
    (t.map f).toList = t.toList.map fun s => ⟨s.1, f s.2⟩ := by
  induction t with
  | nil => rfl
  | node o l r ihl ihr => cases o <;> simp [map, toList, mapBit0, mapBit1, ihl, ihr] <;> rfl

end Trie

namespace Aig

open UnorderedMap Library

/-! ## Nodes -/

section Erase

variable {α : Type}

/-- Forget the value of a variable. -/
def Node.erase : Node α → Node α
  | .var _ => .var false
  | .and n₁ b₁ n₂ b₂ => .and n₁ b₁ n₂ b₂

def eraseGraph (g : Graph α) : Graph α := fun a => (g a).map Node.erase

theorem Node.valid_erase [Counter α] (a : α) (n : Node α) : n.erase.valid a = n.valid a := by
  cases n <;> rfl

theorem Node.toSubformula_erase {β : Type} [Sat.Clause α β] [Counter α] (a : α) (n : Node α) :
    (n.erase.toSubformula a : List β) = n.toSubformula a := by
  cases n <;> rfl

theorem Node.listToSubformulas_erase {β : Type} [Sat.Clause α β] [Counter α]
    (l : List (Σ _ : α, Node α)) :
    (Node.listToSubformulas (l.map fun s => ⟨s.1, s.2.erase⟩) : Option (List β)) =
      Node.listToSubformulas l := by
  induction l with
  | nil => rfl
  | cons s l ih =>
      obtain ⟨a, n⟩ := s
      simp only [List.map_cons, Node.listToSubformulas, ih, Node.valid_erase,
        Node.toSubformula_erase]

end Erase

/-! ## Rules -/

namespace Rewrite

variable {α : Type}

def Term.erase (t : Term α) : Term α := (t.1, t.2.1, t.2.2.erase)

def Result.erase : Result α → Result α
  | .sub r => .sub r
  | .new t₁ t₂ => .new (Term.erase t₁) (Term.erase t₂)

theorem run_subrules_erase [DecidableEq α] (t₁ t₂ : Term α) :
    ∀ f ∈ (subrules : List (SubRule α)), f.run t₁.erase t₂.erase = f.run t₁ t₂ := by
  obtain ⟨a₁, b₁, n₁⟩ := t₁
  obtain ⟨a₂, b₂, n₂⟩ := t₂
  unfold subrules
  simp only [List.forall_mem_cons]
  refine ⟨?_, ?_, ?_, ?_, ?_, ?_, ?_, ?_, List.forall_mem_nil _⟩
  all_goals cases b₁ <;> cases b₂ <;> cases n₁ <;> cases n₂ <;> rfl

theorem SubRule.optimizeWith_erase {t₁ t₂ : Term α} {opts : List (SubRule α)}
    (h : ∀ f ∈ opts, f.run t₁.erase t₂.erase = f.run t₁ t₂) :
    SubRule.optimizeWith t₁.erase t₂.erase opts = SubRule.optimizeWith t₁ t₂ opts := by
  induction opts with
  | nil => rfl
  | cons f fs ih =>
      rw [List.forall_mem_cons] at h
      rw [SubRule.optimizeWith, SubRule.optimizeWith, h.1, ih h.2]

/-- Two terms with their nodes erased. -/
def erasePair (t : Term α × Term α) : Term α × Term α := (t.1.erase, t.2.erase)

section NewRules

variable [DecidableEq α] (g : Graph α) (t₁ t₂ : Term α)

theorem runIdempotence4s_erase : runIdempotence4s t₁.erase t₂.erase (eraseGraph g) =
    (runIdempotence4s t₁ t₂ g).map erasePair := by
  obtain ⟨a₁, b₁, n₁⟩ := t₁
  obtain ⟨a₂, b₂, n₂⟩ := t₂
  cases b₁ <;> cases b₂ <;> cases n₁ <;> cases n₂ <;> try rfl
  rename_i a₁₁ b₁₁ a₁₂ b₁₂ a₂₁ b₂₁ a₂₂ b₂₂
  simp only [runIdempotence4s, Term.erase, Node.erase, eraseGraph]
  split_ifs
  · cases g a₂₂ <;> rfl
  · cases g a₂₁ <;> rfl
  · rfl

theorem runSubstitution3a_erase : runSubstitution3a t₁.erase t₂.erase (eraseGraph g) =
    (runSubstitution3a t₁ t₂ g).map erasePair := by
  obtain ⟨a₁, b₁, n₁⟩ := t₁
  obtain ⟨a₂, b₂, n₂⟩ := t₂
  cases b₁ <;> cases n₁ <;> try rfl
  rename_i a₁₁ b₁₁ a₁₂ b₁₂
  simp only [runSubstitution3a, Term.erase, Node.erase, eraseGraph]
  split_ifs
  · cases g a₁₁ <;> rfl
  · cases g a₁₂ <;> rfl
  · rfl

theorem runSubstitution3s_erase : runSubstitution3s t₁.erase t₂.erase (eraseGraph g) =
    (runSubstitution3s t₁ t₂ g).map erasePair := by
  obtain ⟨a₁, b₁, n₁⟩ := t₁
  obtain ⟨a₂, b₂, n₂⟩ := t₂
  cases b₁ <;> cases b₂ <;> cases n₁ <;> cases n₂ <;> try rfl
  rename_i a₁₁ b₁₁ a₁₂ b₁₂ a₂₁ b₂₁ a₂₂ b₂₂
  simp only [runSubstitution3s, Term.erase, Node.erase, eraseGraph]
  split_ifs
  · cases g a₁₁ <;> rfl
  · cases g a₁₂ <;> rfl
  · rfl

theorem run_newrules_erase : ∀ f ∈ (newrules : List (NewRule α)),
    f.run t₁.erase t₂.erase (eraseGraph g) = (f.run t₁ t₂ g).map erasePair := by
  unfold newrules
  simp only [List.forall_mem_cons]
  refine ⟨?_, ?_, ?_, ?_, ?_, List.forall_mem_nil _⟩
  · exact runIdempotence4s_erase g t₁ t₂
  · exact runSubstitution3a_erase g t₁ t₂
  · exact runSubstitution3a_erase g t₂ t₁
  · exact runSubstitution3s_erase g t₁ t₂
  · exact runSubstitution3s_erase g t₂ t₁

end NewRules

theorem NewRule.optimizeWith_erase {g : Graph α} {t₁ t₂ : Term α} {opts : List (NewRule α)}
    (h : ∀ f ∈ opts, f.run t₁.erase t₂.erase (eraseGraph g) = (f.run t₁ t₂ g).map erasePair) :
    NewRule.optimizeWith t₁.erase t₂.erase (eraseGraph g) opts =
      (NewRule.optimizeWith t₁ t₂ g opts).map erasePair := by
  induction opts with
  | nil => rfl
  | cons f fs ih =>
      rw [List.forall_mem_cons] at h
      rw [NewRule.optimizeWith, NewRule.optimizeWith, h.1, ih h.2]
      cases f.run t₁ t₂ g <;> rfl

theorem optimizeWith_erase [DecidableEq α] (g : Graph α) (n : ℕ) (t₁ t₂ : Term α) :
    optimizeWith (eraseGraph g) n t₁.erase t₂.erase = (optimizeWith g n t₁ t₂).erase := by
  induction n generalizing t₁ t₂ with
  | zero => rfl
  | succ n ih =>
      rw [optimizeWith, optimizeWith, SubRule.optimizeWith_erase (run_subrules_erase t₁ t₂),
        NewRule.optimizeWith_erase (run_newrules_erase g t₁ t₂)]
      cases SubRule.optimizeWith t₁ t₂ subrules with
      | some r => rfl
      | none =>
          cases NewRule.optimizeWith t₁ t₂ g newrules with
          | none => rfl
          | some t => exact ih t.1 t.2

/-- Two results that are the same up to nodes. -/
theorem Result.eq_of_erase_eq {r r' : Result α} (h : r.erase = r'.erase) :
    (∃ x, r = .sub x ∧ r' = .sub x) ∨
      ∃ (t₁ t₂ : Term α) (m₁ m₂ : Node α), r = .new t₁ t₂ ∧
        r' = .new (t₁.1, t₁.2.1, m₁) (t₂.1, t₂.2.1, m₂) := by
  cases r with
  | sub x =>
      cases r' with
      | sub x' =>
          cases h
          exact .inl ⟨x, rfl, rfl⟩
      | new t₁ t₂ => cases h
  | new t₁ t₂ =>
      cases r' with
      | sub x' => cases h
      | new t₁' t₂' =>
          simp only [Result.erase, Term.erase, Result.new.injEq, Prod.mk.injEq] at h
          obtain ⟨⟨ha₁, hb₁, -⟩, ha₂, hb₂, -⟩ := h
          refine .inr ⟨t₁, t₂, t₁'.2.2, t₂'.2.2, rfl, ?_⟩
          rw [ha₁, hb₁, ha₂, hb₂]

end Rewrite

/-! ## Factories -/

namespace Factory

/-- The factory over tries that the verifier uses. -/
abbrev TrieFactory : Type := Factory PosNum (Trie (Node PosNum))

/-- Two factories that differ in the values of their variables only. -/
structure Same (g g' : TrieFactory) : Prop where
  nextid : g.nextid = g'.nextid
  cache : g.cache = g'.cache
  nodes : g.nodes.map Node.erase = g'.nodes.map Node.erase

variable {g g' : TrieFactory}

theorem Same.interpret (h : Same g g') :
    eraseGraph (Node.interpret g.nodes) = eraseGraph (Node.interpret g'.nodes) := by
  funext a
  have hlookup := congrArg (Trie.lookup a) h.nodes
  rw [Trie.lookup_map, Trie.lookup_map] at hlookup
  exact hlookup

/-- A register that one factory knows is known to the other, with the same node up
to its value. -/
theorem Same.lookup (h : Same g g') (a : PosNum) :
    (lookup a g.nodes = none ∧ lookup a g'.nodes = none) ∨
      ∃ n n', lookup a g.nodes = some n ∧ lookup a g'.nodes = some n' ∧ n.erase = n'.erase := by
  have ha : (UnorderedMap.lookup a g.nodes).map Node.erase =
      (UnorderedMap.lookup a g'.nodes).map Node.erase := congrFun h.interpret a
  cases hn : UnorderedMap.lookup a g.nodes with
  | none =>
      rw [hn, Option.map_none, eq_comm, Option.map_eq_none_iff] at ha
      exact .inl ⟨rfl, ha⟩
  | some n =>
      rw [hn, Option.map_some, eq_comm, Option.map_eq_some_iff] at ha
      obtain ⟨n', hn', he⟩ := ha
      exact .inr ⟨n, n', rfl, hn', he.symm⟩

theorem Same.toCnf {β γ : Type} [Sat.Clause PosNum β] [Sat.Formula PosNum β γ] (h : Same g g')
    (x : Ref PosNum) : (x.toCnf g.nodes : Option γ) = x.toCnf g'.nodes := by
  cases x with
  | top => rfl
  | bot => rfl
  | root a b =>
      have hlist := congrArg Trie.toList h.nodes
      rw [Trie.toList_map, Trie.toList_map] at hlist
      have hsub : (Node.listToSubformulas (toList g.nodes) : Option (List β)) =
          Node.listToSubformulas (toList g'.nodes) := by
        rw [← Node.listToSubformulas_erase (toList g.nodes),
          ← Node.listToSubformulas_erase (toList g'.nodes)]
        exact congrArg Node.listToSubformulas hlist
      rw [Ref.toCnf, Ref.toCnf, hsub]

/-- Builders of references that take the same steps. -/
abbrev Alike (m m' : StateM TrieFactory (Ref PosNum)) : Prop := Lockstep Same Eq m m'

theorem alike_mkVar (b b' : Bool) : Alike (mkVar b) (mkVar b') := by
  intro g g' h
  have hnodes : (Trie.kinsert g.nextid (.var b) g.nodes).map Node.erase =
      (Trie.kinsert g'.nextid (.var b') g'.nodes).map Node.erase := by
    rw [Trie.map_kinsert, Trie.map_kinsert, h.nodes, h.nextid]
    rfl
  exact ⟨⟨congrArg Counter.next h.nextid, h.cache, hnodes⟩, congrArg Ref.mkReg h.nextid⟩

variable (a₁ a₂ : PosNum) (b₁ b₂ : Bool)

theorem alike_mkAndRaw : Alike (mkAndRaw a₁ b₁ a₂ b₂) (mkAndRaw a₁ b₁ a₂ b₂) := by
  intro g g' h
  have hnodes : (Trie.kinsert g.nextid (.and a₁ b₁ a₂ b₂) g.nodes).map Node.erase =
      (Trie.kinsert g'.nextid (.and a₁ b₁ a₂ b₂) g'.nodes).map Node.erase := by
    rw [Trie.map_kinsert, Trie.map_kinsert, h.nodes, h.nextid]
  have hcache : g.cache.update (key a₁ b₁ a₂ b₂) g.nextid =
      g'.cache.update (key a₁ b₁ a₂ b₂) g'.nextid := by rw [h.cache, h.nextid]
  exact ⟨⟨congrArg Counter.next h.nextid, hcache, hnodes⟩, congrArg Ref.mkReg h.nextid⟩

theorem alike_mkAndCache : Alike (mkAndCache a₁ b₁ a₂ b₂) (mkAndCache a₁ b₁ a₂ b₂) := by
  intro g g' h
  have hraw := alike_mkAndRaw a₁ a₂ b₁ b₂ g g' h
  unfold mkAndCache
  unfold StateT.run at *
  dsimp only
  rw [h.cache]
  split
  · exact ⟨h, rfl⟩
  · exact hraw

theorem alike_mkAndNormorder :
    Alike (mkAndNormorder a₁ b₁ a₂ b₂) (mkAndNormorder a₁ b₁ a₂ b₂) := by
  unfold mkAndNormorder
  split
  · exact alike_mkAndCache a₁ a₂ b₁ b₂
  · exact alike_mkAndCache a₂ a₁ b₂ b₁

theorem Same.optimize (h : Same g g') {n₁ n₁' n₂ n₂' : Node PosNum} (h₁ : n₁.erase = n₁'.erase)
    (h₂ : n₂.erase = n₂'.erase) :
    (Rewrite.optimize (Node.interpret g.nodes) (a₁, b₁, n₁) (a₂, b₂, n₂)).erase =
      (Rewrite.optimize (Node.interpret g'.nodes) (a₁, b₁, n₁') (a₂, b₂, n₂')).erase := by
  unfold Rewrite.optimize
  rw [← Rewrite.optimizeWith_erase, ← Rewrite.optimizeWith_erase, h.interpret]
  simp only [Rewrite.Term.erase, h₁, h₂]

/-- What is done with a result of the rules does not depend on its nodes. -/
theorem alike_mkAndAux : Alike (mkAndAux a₁ b₁ a₂ b₂) (mkAndAux a₁ b₁ a₂ b₂) := by
  refine .get fun g g' h => ?_
  rcases h.lookup a₁ with ⟨hn₁, hn₁'⟩ | ⟨n₁, n₁', hn₁, hn₁', he₁⟩
  · rw [hn₁, hn₁']
    exact alike_mkAndNormorder a₁ a₂ b₁ b₂
  rcases h.lookup a₂ with ⟨hn₂, hn₂'⟩ | ⟨n₂, n₂', hn₂, hn₂', he₂⟩
  · rw [hn₁, hn₁', hn₂, hn₂']
    exact alike_mkAndNormorder a₁ a₂ b₁ b₂
  rw [hn₁, hn₁', hn₂, hn₂']
  dsimp only
  rcases Rewrite.Result.eq_of_erase_eq (h.optimize a₁ a₂ b₁ b₂ he₁ he₂) with
    ⟨x, hr, hr'⟩ | ⟨t₁, t₂, m₁, m₂, hr, hr'⟩
  · rw [hr, hr']
    exact .pure rfl
  · rw [hr, hr']
    exact alike_mkAndNormorder _ _ _ _

theorem alike_mkAnd {x₁ x₂ x₁' x₂' : Ref PosNum} (h₁ : x₁ = x₁') (h₂ : x₂ = x₂') :
    Alike (mkAnd x₁ x₂) (mkAnd x₁' x₂') := by
  subst h₁ h₂
  unfold mkAnd
  split
  · exact .pure rfl
  · exact .pure rfl
  · exact .pure rfl
  · exact .pure rfl
  · split
    · exact .pure rfl
    · exact alike_mkAndAux _ _ _ _

theorem alike_mkOr {x₁ x₂ x₁' x₂' : Ref PosNum} (h₁ : x₁ = x₁') (h₂ : x₂ = x₂') :
    Alike (mkOr x₁ x₂) (mkOr x₁' x₂') :=
  (alike_mkAnd (congrArg Ref.neg h₁) (congrArg Ref.neg h₂)).map fun _ _ h => congrArg Ref.neg h

instance : Sat.Erasure (BRef PosNum) TrieFactory where
  Same := Same
  SameExpr e e' := e.1 = e'.1
  same_initF := ⟨rfl, rfl, rfl⟩
  sameExpr_mkConst b _ := by cases b <;> rfl
  mkNot h := .pure (congrArg Ref.neg h)
  mkAnd h₁ h₂ := (alike_mkAnd h₁ h₂).map fun _ _ h => h
  mkOr h₁ h₂ := (alike_mkOr h₁ h₂).map fun _ _ h => h
  mkVar b b' := (alike_mkVar b b').map fun _ _ h => h

end Factory

/-- The decision procedure sees neither the values of a factory nor that of the
reference. -/
theorem decideViaToCnf_same {g g' : Factory.TrieFactory} {x x' : BRef PosNum}
    (h : Factory.Same g g') (hx : x.1 = x'.1) (v : Bool) (w : List Sat.DefaultAction) :
    decideViaToCnf g x v w = decideViaToCnf g' x' v w := by
  unfold decideViaToCnf decideViaTrivial
  rw [hx, h.toCnf]

end Aig

end Exoverifier

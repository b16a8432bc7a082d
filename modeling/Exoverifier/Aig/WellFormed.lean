import Exoverifier.Aig.Factory

/-! # Well-formed factories

What the operators keep beyond the fields of a factory. The children of a
conjunction have smaller ids, the left one the larger of the two, and every
conjunction is in the cache. So a conjunction has one id only and every id in use
has a value.
-/

namespace Exoverifier.Aig

open UnorderedMap Library

/-- The children of a node are different and have smaller ids, the larger first. -/
def Node.valid {α : Type} [Counter α] (a : α) : Node α → Bool
  | .var _ => true
  | .and a₁ _ a₂ _ => decide (a₁ < a ∧ a₂ < a₁)

namespace Factory

variable {α σ : Type} [UnorderedMap α (Node α) σ] [PerfectHashable α] [Counter α]

structure WellFormed (g : Factory α σ) : Prop where
  valid : ∀ a n, Node.interpret g.nodes a = some n → n.valid a = true
  cached : ∀ a n₁ b₁ n₂ b₂, Node.interpret g.nodes a = some (.and n₁ b₁ n₂ b₂) →
    g.cache.lookup (key n₁ b₁ n₂ b₂) = some a

/-- A reference to a constant or to an id in use. -/
def Owns (g : Factory α σ) : Ref α → Prop
  | .root a _ => a < g.nextid
  | _ => True

instance (g : Factory α σ) : DecidablePred g.Owns
  | .root a _ => inferInstanceAs (Decidable (a < g.nextid))
  | .top => instDecidableTrue
  | .bot => instDecidableTrue

variable {g g' : Factory α σ} {x x₁ x₂ : Ref α} {a a₁ a₂ n₁ n₂ : α} {b b₁ b₂ r r₁ r₂ : Bool}

/-! ## Values -/

theorem owns_neg_iff : g.Owns x.neg ↔ g.Owns x := by
  cases x <;> rfl

theorem Owns.mono (hle : g ≤ g') (h : g.Owns x) : g'.Owns x := by
  cases x with
  | top => trivial
  | bot => trivial
  | root a b =>
      obtain ⟨n, hn⟩ := lt_nextid_iff.1 h
      exact lt_nextid_iff.2 ⟨n, le_iff.1 hle a n hn⟩

theorem Sat.owns (h : g.Sat x r) : g.Owns x := by
  cases x with
  | top => trivial
  | bot => trivial
  | root a b => exact lt_nextid_iff.2 (Option.isSome_iff_exists.1 (Ref.sat_root_iff.1 h).isSome)

namespace WellFormed

theorem children (hg : g.WellFormed)
    (h : Node.interpret g.nodes a = some (.and n₁ b₁ n₂ b₂)) :
    n₁ < a ∧ n₂ < n₁ ∧ a < g.nextid := by
  have hvalid := hg.valid a _ h
  unfold Node.valid at hvalid
  rw [decide_eq_true_iff] at hvalid
  exact ⟨hvalid.1, hvalid.2, lt_nextid_iff.2 ⟨_, h⟩⟩

theorem exists_sat_node (hg : g.WellFormed) (a : α) :
    a < g.nextid → ∃ r, Node.Sat (Node.interpret g.nodes) a r := by
  induction a using Counter.strongInductionOn with
  | h a ih =>
      intro ha
      obtain ⟨n, hn⟩ := lt_nextid_iff.1 ha
      cases n with
      | var b => exact ⟨b, .var hn⟩
      | and n₁ b₁ n₂ b₂ =>
          obtain ⟨h₁, h₂, -⟩ := hg.children hn
          obtain ⟨r₁, hr₁⟩ := ih n₁ h₁ (h₁.trans ha)
          obtain ⟨r₂, hr₂⟩ := ih n₂ (h₂.trans h₁) (h₂.trans (h₁.trans ha))
          exact ⟨_, .and hn hr₁ hr₂⟩

theorem exists_sat (hg : g.WellFormed) (h : g.Owns x) : ∃ r, g.Sat x r := by
  cases x with
  | top => exact ⟨_, .top⟩
  | bot => exact ⟨_, .bot⟩
  | root a b =>
      obtain ⟨r, hr⟩ := hg.exists_sat_node a h
      exact ⟨_, .root hr⟩

theorem proper (hg : g.WellFormed) : Rewrite.Proper (Node.interpret g.nodes) := by
  intro a n₁ b₁ n₂ b₂ h
  obtain ⟨h₁, h₂, ha⟩ := hg.children h
  refine ⟨h₂.ne', ?_, ?_⟩
  · exact Option.isSome_iff_exists.2 (lt_nextid_iff.1 (h₁.trans ha))
  · exact Option.isSome_iff_exists.2 (lt_nextid_iff.1 (h₂.trans (h₁.trans ha)))

/-! ## Operators -/

theorem init : (init : Factory α σ).WellFormed where
  valid a n h := absurd (lt_nextid_iff.2 ⟨n, h⟩) (Counter.not_lt_init a)
  cached a _ _ _ _ h := absurd (lt_nextid_iff.2 ⟨_, h⟩) (Counter.not_lt_init a)

theorem mkVar (hg : g.WellFormed) (b : Bool) : ((mkVar b).run g).2.WellFormed where
  valid a n h := by
    have hnodes : Node.interpret ((Factory.mkVar b).run g).2.nodes a =
        if a = g.nextid then some (.var b) else Node.interpret g.nodes a :=
      Node.interpret_kinsert nextid_notMem a
    rw [hnodes] at h
    split at h
    · cases h
      rfl
    · exact hg.valid a n h
  cached a n₁ b₁ n₂ b₂ h := by
    have hnodes : Node.interpret ((Factory.mkVar b).run g).2.nodes a =
        if a = g.nextid then some (.var b) else Node.interpret g.nodes a :=
      Node.interpret_kinsert nextid_notMem a
    rw [hnodes] at h
    split at h
    · cases h
    · exact hg.cached a n₁ b₁ n₂ b₂ h

theorem mkAndRaw (hg : g.WellFormed) (h₁ : a₁ < g.nextid) (h₂ : a₂ < a₁)
    (hnew : g.cache.lookup (key a₁ b₁ a₂ b₂) = none) :
    ((mkAndRaw a₁ b₁ a₂ b₂).run g).2.WellFormed := by
  have hnodes : ∀ a, Node.interpret ((Factory.mkAndRaw a₁ b₁ a₂ b₂).run g).2.nodes a =
      if a = g.nextid then some (.and a₁ b₁ a₂ b₂) else Node.interpret g.nodes a :=
    Node.interpret_kinsert nextid_notMem
  have hcache : ∀ k, ((Factory.mkAndRaw a₁ b₁ a₂ b₂).run g).2.cache.lookup k =
      if k = key a₁ b₁ a₂ b₂ then some g.nextid else g.cache.lookup k :=
    fun k => Trien.lookup_update g.cache _ k g.nextid
  constructor
  · intro a n h
    rw [hnodes] at h
    split at h
    · rename_i ha
      cases h
      subst ha
      exact decide_eq_true ⟨h₁, h₂⟩
    · exact hg.valid a n h
  · intro a n₁ c₁ n₂ c₂ h
    rw [hnodes] at h
    rw [hcache]
    split at h
    · rename_i ha
      cases h
      rw [if_pos rfl, ha]
    · have hold := hg.cached a n₁ c₁ n₂ c₂ h
      have hne : key n₁ c₁ n₂ c₂ ≠ key a₁ b₁ a₂ b₂ := by
        intro hkey
        rw [← hkey, hold] at hnew
        cases hnew
      rw [if_neg hne]
      exact hold

theorem mkAndCache (hg : g.WellFormed) (h₁ : a₁ < g.nextid) (h₂ : a₂ < a₁) :
    ((mkAndCache a₁ b₁ a₂ b₂).run g).2.WellFormed := by
  have hraw : g.cache.lookup (key a₁ b₁ a₂ b₂) = none →
      ((Factory.mkAndRaw a₁ b₁ a₂ b₂).run g).2.WellFormed := hg.mkAndRaw h₁ h₂
  unfold Factory.mkAndCache
  unfold StateT.run at *
  dsimp only
  split
  · exact hg
  · rename_i hnew
    exact hraw hnew

theorem mkAndNormorder (hg : g.WellFormed) (h₁ : a₁ < g.nextid) (h₂ : a₂ < g.nextid)
    (hne : a₁ ≠ a₂) : ((mkAndNormorder a₁ b₁ a₂ b₂).run g).2.WellFormed := by
  unfold Factory.mkAndNormorder
  split
  · rename_i hle
    exact hg.mkAndCache h₁ (lt_of_le_of_ne hle hne.symm)
  · rename_i hle
    exact hg.mkAndCache h₂ (not_le.1 hle)

/-- A builder that reads its state. -/
theorem of_get {δ : Type} {f : Factory α σ → StateM (Factory α σ) δ}
    (h : ((f g).run g).2.WellFormed) : ((MonadState.get >>= f).run g).2.WellFormed :=
  h

/-- The rules are needed here: they leave two different children. -/
theorem mkAndAux (hg : g.WellFormed) (h₁ : a₁ < g.nextid) (h₂ : a₂ < g.nextid)
    (hne : a₁ ≠ a₂) : ((mkAndAux a₁ b₁ a₂ b₂).run g).2.WellFormed := by
  refine of_get ?_
  split
  · rename_i n₁ n₂ hn₁ hn₂
    obtain ⟨r₁, hr₁⟩ := hg.exists_sat_node a₁ h₁
    obtain ⟨r₂, hr₂⟩ := hg.exists_sat_node a₂ h₂
    have hroot₁ : (Ref.root a₁ b₁).Sat (Node.interpret g.nodes) (b₁ ^^ r₁) := .root hr₁
    have hroot₂ : (Ref.root a₂ b₂).Sat (Node.interpret g.nodes) (b₂ ^^ r₂) := .root hr₂
    have hsound := Rewrite.sound_optimizeWith Rewrite.depth hn₁ hn₂ hroot₁ hroot₂
    have hdiff : ∀ {t₁' t₂'}, Rewrite.optimizeWith (Node.interpret g.nodes) Rewrite.depth
        (a₁, b₁, n₁) (a₂, b₂, n₂) = .new t₁' t₂' → t₁'.1 ≠ t₂'.1 :=
      Rewrite.optimizeWith_ne hg.proper Rewrite.depth hne hn₁ hn₂ ⟨r₁, hr₁⟩ ⟨r₂, hr₂⟩
    unfold Rewrite.optimize
    split
    · exact hg
    · rename_i a₁' b₁' n₁' a₂' b₂' n₂' hr
      rw [hr] at hsound
      obtain ⟨hn₁', hn₂', -⟩ := hsound
      exact hg.mkAndNormorder (lt_nextid_iff.2 ⟨_, hn₁'⟩) (lt_nextid_iff.2 ⟨_, hn₂'⟩) (hdiff hr)
  · exact hg.mkAndNormorder h₁ h₂ hne

theorem mkAnd (hg : g.WellFormed) (h₁ : g.Owns x₁) (h₂ : g.Owns x₂) :
    ((mkAnd x₁ x₂).run g).2.WellFormed := by
  unfold Factory.mkAnd
  split
  · exact hg
  · exact hg
  · exact hg
  · exact hg
  · split
    · exact hg
    · rename_i hne
      exact hg.mkAndAux h₁ h₂ hne

end WellFormed

/-! ## Runs -/

/-- The factories that sequences of the operators on their own references make. -/
inductive Reachable : Factory α σ → Prop where
  | init : Reachable init
  | mkVar {g : Factory α σ} (b : Bool) : Reachable g → Reachable ((mkVar b).run g).2
  | mkAnd {g : Factory α σ} {x₁ x₂ : Ref α} : Reachable g → g.Owns x₁ → g.Owns x₂ →
      Reachable ((mkAnd x₁ x₂).run g).2

theorem Reachable.mkOr (hg : g.Reachable) (h₁ : g.Owns x₁) (h₂ : g.Owns x₂) :
    Reachable ((Factory.mkOr x₁ x₂).run g).2 :=
  Reachable.mkAnd hg (owns_neg_iff.2 h₁) (owns_neg_iff.2 h₂)

theorem Reachable.wellFormed (h : g.Reachable) : g.WellFormed := by
  induction h with
  | init => exact .init
  | mkVar b _ ih => exact ih.mkVar b
  | mkAnd _ h₁ h₂ ih => exact ih.mkAnd h₁ h₂

/-- A result of an operator is owned by the factory after it. -/
theorem Reachable.owns_mkAnd (hg : g.Reachable) (h₁ : g.Owns x₁) (h₂ : g.Owns x₂) :
    Owns ((Factory.mkAnd x₁ x₂).run g).2 ((Factory.mkAnd x₁ x₂).run g).1 := by
  obtain ⟨r₁, hr₁⟩ := hg.wellFormed.exists_sat h₁
  obtain ⟨r₂, hr₂⟩ := hg.wellFormed.exists_sat h₂
  exact (builds_mkAnd hr₁ hr₂).2.owns

/-- In every reachable factory the graph has no cycles, no conjunction is there
twice, and the ids in use are those with exactly one value. -/
theorem Reachable.hashCons (h : g.Reachable) :
    (∀ a n₁ b₁ n₂ b₂, Node.interpret g.nodes a = some (.and n₁ b₁ n₂ b₂) → n₁ < a ∧ n₂ < n₁) ∧
      (∀ a a' n₁ b₁ n₂ b₂, Node.interpret g.nodes a = some (.and n₁ b₁ n₂ b₂) →
        Node.interpret g.nodes a' = some (.and n₁ b₁ n₂ b₂) → a = a') ∧
      (∀ a, a < g.nextid ↔ ∃! r, Node.Sat (Node.interpret g.nodes) a r) := by
  have hg := h.wellFormed
  refine ⟨fun a n₁ b₁ n₂ b₂ ha => ?_, fun a a' n₁ b₁ n₂ b₂ ha ha' => ?_, fun a => ?_⟩
  · exact ⟨(hg.children ha).1, (hg.children ha).2.1⟩
  · have hcached := hg.cached a _ _ _ _ ha
    rw [hg.cached a' _ _ _ _ ha'] at hcached
    exact (Option.some.inj hcached).symm
  · constructor
    · intro ha
      obtain ⟨r, hr⟩ := hg.exists_sat_node a ha
      exact ⟨r, hr, fun r' hr' => hr'.unique hr⟩
    · intro ⟨r, hr, _⟩
      exact lt_nextid_iff.2 (Option.isSome_iff_exists.1 hr.isSome)

/-- The conjunction of two variables. -/
def andOfVars : Factory PosNum (Trie (Node PosNum)) :=
  ((mkAnd (.mkReg 1) (.mkReg 2)).run ((mkVar true).run ((mkVar false).run init).2).2).2

theorem hashCons_andOfVars : ∃! r, Node.Sat (Node.interpret andOfVars.nodes) 3 r := by
  have h : andOfVars.Reachable := .mkAnd (.mkVar true (.mkVar false .init)) (by decide) (by decide)
  exact (Reachable.hashCons h).2.2 3 |>.1 (by decide)

end Factory

end Exoverifier.Aig

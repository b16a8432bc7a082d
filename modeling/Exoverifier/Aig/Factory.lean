import Exoverifier.Aig.Rewrite
import Exoverifier.Sat.Factory

/-! # Building graphs

The operators of `aig/factory.lean`. A conjunction is simplified at the constants
and by the two-level rules, its children are put in order, and it is looked up in
the cache before a node is made for it.
-/

namespace Exoverifier.Aig

open UnorderedMap Library

namespace Factory

variable {α σ : Type} [UnorderedMap α (Node α) σ] [PerfectHashable α] [Counter α]

/-! ## Operators -/

/-- Make a fresh variable. -/
def mkVar (b : Bool) : StateM (Factory α σ) (Ref α) := fun g =>
  (.mkReg g.nextid,
    { nextid := Counter.next g.nextid
      nodes := Node.insertVar g.nodes g.nextid b
      cache := g.cache
      cache_ok := fun _ _ _ _ _ h =>
        Node.interpret_kinsert_of_some nextid_notMem (g.cache_ok _ _ _ _ _ h)
      complete := complete_kinsert _ })

/-- Make a conjunction without optimizations. -/
def mkAndRaw (a₁ : α) (b₁ : Bool) (a₂ : α) (b₂ : Bool) : StateM (Factory α σ) (Ref α) := fun g =>
  (.mkReg g.nextid,
    { nextid := Counter.next g.nextid
      nodes := Node.insertAnd g.nodes g.nextid a₁ b₁ a₂ b₂
      cache := g.cache.update (key a₁ b₁ a₂ b₂) g.nextid
      cache_ok := fun n₁ c₁ n₂ c₂ n₃ h => by
        rw [Trien.lookup_update] at h
        split at h
        · rename_i hkey
          cases h
          obtain ⟨rfl, rfl, rfl, rfl⟩ := key_eq_iff.1 hkey
          have hnew := Node.interpret_kinsert (n := .and n₁ c₁ n₂ c₂) g.nextid_notMem g.nextid
          rwa [if_pos rfl] at hnew
        · exact Node.interpret_kinsert_of_some nextid_notMem (g.cache_ok _ _ _ _ _ h)
      complete := complete_kinsert _ })

/-- A conjunction that was made before is returned again. -/
def mkAndCache (a₁ : α) (b₁ : Bool) (a₂ : α) (b₂ : Bool) : StateM (Factory α σ) (Ref α) := fun g =>
  match g.cache.lookup (key a₁ b₁ a₂ b₂) with
  | some r => (.mkReg r, g)
  | none => mkAndRaw a₁ b₁ a₂ b₂ g

/-- The child with the larger id comes first. -/
def mkAndNormorder (a₁ : α) (b₁ : Bool) (a₂ : α) (b₂ : Bool) : StateM (Factory α σ) (Ref α) :=
  if a₂ ≤ a₁ then mkAndCache a₁ b₁ a₂ b₂ else mkAndCache a₂ b₂ a₁ b₁

/-- Run the two-level rules. -/
def mkAndAux (a₁ : α) (b₁ : Bool) (a₂ : α) (b₂ : Bool) : StateM (Factory α σ) (Ref α) := do
  let g ← get
  match lookup a₁ g.nodes, lookup a₂ g.nodes with
  | some n₁, some n₂ =>
      match Rewrite.optimize (Node.interpret g.nodes) (a₁, b₁, n₁) (a₂, b₂, n₂) with
      | .sub r => return r
      | .new (a₁', b₁', _) (a₂', b₂', _) => mkAndNormorder a₁' b₁' a₂' b₂'
  | _, _ => mkAndNormorder a₁ b₁ a₂ b₂

def mkAnd : Ref α → Ref α → StateM (Factory α σ) (Ref α)
  | .bot, _ => return .bot
  | _, .bot => return .bot
  | .top, r₂ => return r₂
  | r₁, .top => return r₁
  | .root a₁ b₁, .root a₂ b₂ =>
      if a₁ = a₂ then return if b₁ = b₂ then .root a₁ b₁ else .bot
      else mkAndAux a₁ b₁ a₂ b₂

def mkOr (r₁ r₂ : Ref α) : StateM (Factory α σ) (Ref α) :=
  Ref.neg <$> mkAnd r₁.neg r₂.neg

/-! ## Values -/

/-- The value of a reference in a factory. -/
def Sat (g : Factory α σ) (x : Ref α) (r : Bool) : Prop := x.Sat (Node.interpret g.nodes) r

variable {g g' : Factory α σ}

theorem Sat.mono (hle : g ≤ g') {x : Ref α} {r : Bool} (h : g.Sat x r) : g'.Sat x r :=
  Ref.Sat.mono (le_iff.1 hle) h

/-- A builder that adds a node at the next id grows the factory. -/
theorem le_of_kinsert {n : Node α} (h : g'.nodes = kinsert g.nextid n g.nodes) : g ≤ g' := by
  rw [le_iff, h]
  exact fun i m hi => Node.interpret_kinsert_of_some nextid_notMem hi

theorem interpret_nextid {n : Node α} (h : g'.nodes = kinsert g.nextid n g.nodes) :
    Node.interpret g'.nodes g.nextid = some n := by
  rw [h, Node.interpret_kinsert nextid_notMem, if_pos rfl]

theorem builds_mkVar (g : Factory α σ) (b : Bool) :
    Builds (mkVar b) g fun g' x => g'.Sat x b := by
  refine ⟨le_of_kinsert rfl, ?_⟩
  have hvar : Node.interpret ((mkVar b).run g).2.nodes g.nextid = some (.var b) :=
    interpret_nextid rfl
  have hroot := Ref.Sat.root (b := false) (Node.Sat.var hvar)
  rwa [Bool.false_xor] at hroot

variable {a₁ a₂ : α} {b₁ b₂ r₁ r₂ : Bool}

/-- A node for a conjunction has its value. -/
theorem sat_mkReg {a : α} (ha : Node.interpret g.nodes a = some (.and a₁ b₁ a₂ b₂))
    (h₁ : g.Sat (.root a₁ b₁) r₁) (h₂ : g.Sat (.root a₂ b₂) r₂) :
    g.Sat (.mkReg a) (r₁ && r₂) := by
  have hxor : ∀ b r : Bool, (b ^^ (b ^^ r)) = r := by decide
  unfold Sat at h₁ h₂
  rw [Ref.sat_root_iff] at h₁ h₂
  have hand := Ref.Sat.root (b := false) (Node.Sat.and ha h₁ h₂)
  rwa [hxor, hxor, Bool.false_xor] at hand

theorem builds_mkAndRaw (h₁ : g.Sat (.root a₁ b₁) r₁) (h₂ : g.Sat (.root a₂ b₂) r₂) :
    Builds (mkAndRaw a₁ b₁ a₂ b₂) g fun g' x => g'.Sat x (r₁ && r₂) := by
  have hle : g ≤ ((mkAndRaw a₁ b₁ a₂ b₂).run g).2 := le_of_kinsert rfl
  exact ⟨hle, sat_mkReg (interpret_nextid rfl) (h₁.mono hle) (h₂.mono hle)⟩

theorem builds_mkAndCache (h₁ : g.Sat (.root a₁ b₁) r₁) (h₂ : g.Sat (.root a₂ b₂) r₂) :
    Builds (mkAndCache a₁ b₁ a₂ b₂) g fun g' x => g'.Sat x (r₁ && r₂) := by
  have hraw := builds_mkAndRaw h₁ h₂
  unfold Builds mkAndCache at *
  unfold StateT.run at *
  dsimp only
  split
  · rename_i r hr
    exact ⟨le_refl g, sat_mkReg (g.cache_ok _ _ _ _ _ hr) h₁ h₂⟩
  · exact hraw

theorem builds_mkAndNormorder (h₁ : g.Sat (.root a₁ b₁) r₁) (h₂ : g.Sat (.root a₂ b₂) r₂) :
    Builds (mkAndNormorder a₁ b₁ a₂ b₂) g fun g' x => g'.Sat x (r₁ && r₂) := by
  unfold mkAndNormorder
  split
  · exact builds_mkAndCache h₁ h₂
  · rw [Bool.and_comm]
    exact builds_mkAndCache h₂ h₁

theorem builds_mkAndAux (h₁ : g.Sat (.root a₁ b₁) r₁) (h₂ : g.Sat (.root a₂ b₂) r₂) :
    Builds (mkAndAux a₁ b₁ a₂ b₂) g fun g' x => g'.Sat x (r₁ && r₂) := by
  refine .get ?_
  split
  · rename_i n₁ n₂ hn₁ hn₂
    have hsound := Rewrite.sound_optimizeWith (g := Node.interpret g.nodes) Rewrite.depth
      hn₁ hn₂ h₁ h₂
    unfold Rewrite.optimize
    split
    · rename_i r hr
      rw [hr] at hsound
      exact .pure hsound
    · rename_i a₁' b₁' n₁' a₂' b₂' n₂' hr
      rw [hr] at hsound
      obtain ⟨-, -, r₁', r₂', h₁', h₂', he⟩ := hsound
      rw [he]
      exact builds_mkAndNormorder h₁' h₂'
  · exact builds_mkAndNormorder h₁ h₂

theorem builds_mkAnd {x₁ x₂ : Ref α} (h₁ : g.Sat x₁ r₁) (h₂ : g.Sat x₂ r₂) :
    Builds (mkAnd x₁ x₂) g fun g' x => g'.Sat x (r₁ && r₂) := by
  have hbot : ∀ {r}, g.Sat .bot r → r = false := fun h => Ref.sat_bot_iff.1 h
  have htop : ∀ {r}, g.Sat .top r → r = true := fun h => Ref.sat_top_iff.1 h
  unfold mkAnd
  split
  · rw [hbot h₁, Bool.false_and]
    exact .pure Ref.Sat.bot
  · rw [hbot h₂, Bool.and_false]
    exact .pure Ref.Sat.bot
  · rw [htop h₁, Bool.true_and]
    exact .pure h₂
  · rw [htop h₂, Bool.and_true]
    exact .pure h₁
  · split
    · rename_i a₁ b₁ a₂ b₂ ha
      subst ha
      refine .pure ?_
      unfold Sat at h₁ h₂ ⊢
      split
      · rename_i hb
        subst hb
        rw [h₁.unique h₂, Bool.and_self]
        exact h₂
      · rename_i hb
        rw [Ref.sat_root_iff] at h₁ h₂
        have hedge := h₁.unique h₂
        rw [Ref.sat_bot_iff]
        revert hb hedge
        cases b₁ <;> cases b₂ <;> cases r₁ <;> cases r₂ <;> decide
    · exact builds_mkAndAux h₁ h₂

theorem builds_mkOr {x₁ x₂ : Ref α} (h₁ : g.Sat x₁ r₁) (h₂ : g.Sat x₂ r₂) :
    Builds (mkOr x₁ x₂) g fun g' x => g'.Sat x (r₁ || r₂) := by
  have hneg : ∀ {g : Factory α σ} {x : Ref α} {r : Bool}, g.Sat x r → g.Sat x.neg !r := by
    intro g x r h
    unfold Sat at *
    rw [Ref.sat_neg_iff, Bool.not_not]
    exact h
  refine (builds_mkAnd (hneg h₁) (hneg h₂)).map fun g' x _ hx => ?_
  have hor := hneg hx
  rwa [Bool.not_and, Bool.not_not, Bool.not_not] at hor

/-! ## The instance -/

instance : Sat.SatVarFactory (BRef α) (Factory α σ) where
  sat g x b := g.Sat x.1 b ∧ b = x.2
  default := (.root Counter.init true, default)
  initF := init
  denote e := e.2
  denote_sound h := h.2.symm
  sat_of_le hle h := ⟨h.1.mono hle, h.2⟩
  mkConst _ b := bif b then (.top, true) else (.bot, false)
  sat_mkConst _ b := by
    cases b
    · exact ⟨Ref.Sat.bot, rfl⟩
    · exact ⟨Ref.Sat.top, rfl⟩
  mkNot x := return (x.1.neg, !x.2)
  builds_mkNot {g e x} h := by
    refine .pure ⟨?_, congrArg _ h.2⟩
    unfold Factory.Sat
    rw [Ref.sat_neg_iff, Bool.not_not]
    exact h.1
  mkAnd x₁ x₂ := (fun x => (x, x₁.2 && x₂.2)) <$> mkAnd x₁.1 x₂.1
  builds_mkAnd h₁ h₂ := (builds_mkAnd h₁.1 h₂.1).map fun _ _ _ h => ⟨h, by rw [h₁.2, h₂.2]⟩
  mkOr x₁ x₂ := (fun x => (x, x₁.2 || x₂.2)) <$> mkOr x₁.1 x₂.1
  builds_mkOr h₁ h₂ := (builds_mkOr h₁.1 h₂.1).map fun _ _ _ h => ⟨h, by rw [h₁.2, h₂.2]⟩
  mkVar b := (fun x => (x, b)) <$> mkVar b
  builds_mkVar g b := (builds_mkVar g b).map fun _ _ _ h => ⟨h, rfl⟩

end Factory

end Exoverifier.Aig

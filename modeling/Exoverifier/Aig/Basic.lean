import Exoverifier.Data.Counter
import Exoverifier.Data.Trien

/-! # And-inverter graphs

The graphs of `aig/basic.lean`. A node is a variable or a conjunction of two
edges that may be inverted; a reference is an edge to a node or a constant. A
factory allocates the ids of nodes one after the other and caches conjunctions.
Variables carry the value that the source erases.
-/

namespace Exoverifier.Aig

open UnorderedMap

inductive Node (α : Type) where
  | var (b : Bool)
  | and (n₁ : α) (b₁ : Bool) (n₂ : α) (b₂ : Bool)
  deriving DecidableEq

/-- A graph is a partial function from ids to nodes. -/
abbrev Graph (α : Type) : Type := α → Option (Node α)

/-! ## Nodes -/

namespace Node

variable {α : Type}

/-- The value of a node in a graph. -/
inductive Sat (g : Graph α) : α → Bool → Prop where
  | var {b : Bool} {id : α} : g id = some (.var b) → Sat g id b
  | and {b₁ b₂ r₁ r₂ : Bool} {id n₁ n₂ : α} : g id = some (.and n₁ b₁ n₂ b₂) →
      Sat g n₁ r₁ → Sat g n₂ r₂ → Sat g id ((b₁ ^^ r₁) && (b₂ ^^ r₂))

variable {g g' : Graph α} {x n₁ n₂ : α} {b b₁ b₂ r : Bool}

theorem sat_and_iff (h : g x = some (.and n₁ b₁ n₂ b₂)) :
    Sat g x r ↔ ∃ r₁ r₂, Sat g n₁ r₁ ∧ Sat g n₂ r₂ ∧ r = ((b₁ ^^ r₁) && (b₂ ^^ r₂)) := by
  constructor
  · intro hsat
    cases hsat with
    | var hvar =>
        rw [h] at hvar
        cases hvar
    | and hand h₁ h₂ =>
        rw [h] at hand
        cases hand
        exact ⟨_, _, h₁, h₂, rfl⟩
  · rintro ⟨r₁, r₂, h₁, h₂, rfl⟩
    exact .and h h₁ h₂

theorem sat_var_iff (h : g x = some (.var b)) : Sat g x r ↔ r = b := by
  constructor
  · intro hsat
    cases hsat with
    | var hvar =>
        rw [h] at hvar
        cases hvar
        rfl
    | and hand _ _ =>
        rw [h] at hand
        cases hand
  · rintro rfl
    exact .var h

theorem Sat.isSome (h : Sat g x r) : (g x).isSome = true := by
  cases h with
  | var hvar => rw [hvar]; rfl
  | and hand _ _ => rw [hand]; rfl

theorem Sat.unique (h₁ : Sat g x b₁) : ∀ {b₂}, Sat g x b₂ → b₁ = b₂ := by
  induction h₁ with
  | var hvar =>
      intro b₂ h₂
      exact ((sat_var_iff hvar).1 h₂).symm
  | and hand _ _ ih₁ ih₂ =>
      intro b₂ h₂
      obtain ⟨r₁, r₂, hr₁, hr₂, he⟩ := (sat_and_iff hand).1 h₂
      rw [he, ih₁ hr₁, ih₂ hr₂]

/-- Values are kept in larger graphs. -/
theorem Sat.mono (hle : ∀ i n, g i = some n → g' i = some n) (h : Sat g x r) : Sat g' x r := by
  induction h with
  | var hvar => exact .var (hle _ _ hvar)
  | and hand _ _ ih₁ ih₂ => exact .and (hle _ _ hand) ih₁ ih₂

section Insert

variable {σ : Type} [UnorderedMap α (Node α) σ] [DecidableEq α]

/-- An unordered map of nodes as a graph. -/
def interpret (g : σ) : Graph α := fun x => lookup x g

def insertVar (g : σ) (id : α) (b : Bool) : σ := kinsert id (.var b) g

def insertAnd (g : σ) (id n₁ : α) (b₁ : Bool) (n₂ : α) (b₂ : Bool) : σ :=
  kinsert id (.and n₁ b₁ n₂ b₂) g

/-- A fresh id gets the new node and the others keep theirs. -/
theorem interpret_kinsert {g : σ} {id : α} {n : Node α} (hnew : id ∉ (toList g).keys) (k : α) :
    interpret (kinsert id n g) k = if k = id then some n else interpret g k := by
  unfold interpret
  rw [lookup_kinsert]
  by_cases hk : k = id
  · rw [if_pos hk, if_pos hk, hk, lookup_eq_none_iff.2 hnew]
    rfl
  · rw [if_neg hk, if_neg hk]

theorem interpret_kinsert_of_some {g : σ} {id : α} {n : Node α} (hnew : id ∉ (toList g).keys)
    {k : α} {m : Node α} (hk : interpret g k = some m) :
    interpret (kinsert id n g) k = some m := by
  have hne : k ≠ id := by
    rintro rfl
    rw [interpret, lookup_eq_none_iff.2 hnew] at hk
    cases hk
  rw [interpret_kinsert hnew, if_neg hne]
  exact hk

end Insert

end Node

/-! ## References -/

inductive Ref (α : Type) where
  | top
  | bot
  | root (a : α) (b : Bool)
  deriving DecidableEq

/-- A reference with its value. -/
abbrev BRef (α : Type) : Type := Ref α × Bool

namespace Ref

variable {α : Type}

def mkReg (a : α) : Ref α := root a false

inductive Sat (g : Graph α) : Ref α → Bool → Prop where
  | top : Sat g top true
  | bot : Sat g bot false
  | root {a : α} {b r : Bool} : Node.Sat g a r → Sat g (root a b) (b ^^ r)

def neg : Ref α → Ref α
  | top => bot
  | bot => top
  | root a b => root a (!b)

variable {g g' : Graph α} {x : Ref α} {a : α} {b r r₁ r₂ : Bool}

theorem sat_top_iff : Sat g top r ↔ r = true := by
  constructor
  · intro h
    cases h
    rfl
  · rintro rfl
    exact .top

theorem sat_bot_iff : Sat g bot r ↔ r = false := by
  constructor
  · intro h
    cases h
    rfl
  · rintro rfl
    exact .bot

theorem sat_root_iff : Sat g (root a b) r ↔ Node.Sat g a (b ^^ r) := by
  have hxor : ∀ b r : Bool, (b ^^ (b ^^ r)) = r := by decide
  constructor
  · intro h
    cases h with
    | root h =>
        rw [hxor]
        exact h
  · intro h
    have hroot : Sat g (root a b) (b ^^ (b ^^ r)) := .root h
    rwa [hxor] at hroot

theorem Sat.unique (h₁ : Sat g x r₁) (h₂ : Sat g x r₂) : r₁ = r₂ := by
  cases x with
  | top => rw [sat_top_iff.1 h₁, sat_top_iff.1 h₂]
  | bot => rw [sat_bot_iff.1 h₁, sat_bot_iff.1 h₂]
  | root a b =>
      rw [sat_root_iff] at h₁ h₂
      have h := h₁.unique h₂
      cases b <;> simpa using h

theorem Sat.mono (hle : ∀ i n, g i = some n → g' i = some n) (h : Sat g x r) : Sat g' x r := by
  cases h with
  | top => exact .top
  | bot => exact .bot
  | root h => exact .root (h.mono hle)

theorem sat_neg_iff : Sat g x.neg r ↔ Sat g x (!r) := by
  cases x with
  | top => rw [neg, sat_top_iff, sat_bot_iff]; cases r <;> decide
  | bot => rw [neg, sat_top_iff, sat_bot_iff]; cases r <;> decide
  | root a b =>
      have hxor : ((!b) ^^ r) = (b ^^ !r) := by cases b <;> cases r <;> rfl
      rw [neg, sat_root_iff, sat_root_iff, hxor]

end Ref

/-! ## Factories -/

/-- Conjunctions are cached in four nested tries. -/
abbrev NodeCache (α : Type) : Type := Trien α 3

/-- The key of a conjunction in the cache. -/
def key {α : Type} [PerfectHashable α] (n₁ : α) (b₁ : Bool) (n₂ : α) (b₂ : Bool) :
    List.Vector PosNum 4 :=
  PerfectHashable.hash n₁ ::ᵥ PerfectHashable.hash b₁ ::ᵥ PerfectHashable.hash n₂ ::ᵥ
    PerfectHashable.hash b₂ ::ᵥ List.Vector.nil

theorem key_eq_iff {α : Type} [PerfectHashable α] {n₁ n₂ m₁ m₂ : α} {b₁ b₂ c₁ c₂ : Bool} :
    key n₁ b₁ n₂ b₂ = key m₁ c₁ m₂ c₂ ↔ n₁ = m₁ ∧ b₁ = c₁ ∧ n₂ = m₂ ∧ b₂ = c₂ := by
  unfold key
  constructor
  · intro h
    have hlist := congrArg List.Vector.toList h
    simpa [PerfectHashable.hash_inj] using hlist
  · rintro ⟨rfl, rfl, rfl, rfl⟩
    rfl

/-- The ids below the next one are the ids in use, and a cached id names the
conjunction that is its key. -/
structure Factory (α σ : Type) [UnorderedMap α (Node α) σ] [PerfectHashable α] [Counter α] where
  nextid : α
  nodes : σ
  cache : NodeCache α
  cache_ok : ∀ (n₁ : α) (b₁ : Bool) (n₂ : α) (b₂ : Bool) (n₃ : α),
    cache.lookup (key n₁ b₁ n₂ b₂) = some n₃ → lookup n₃ nodes = some (.and n₁ b₁ n₂ b₂)
  complete : ∀ x : α, x < nextid ↔ x ∈ (toList nodes).keys

namespace Factory

variable {α σ : Type} [UnorderedMap α (Node α) σ] [PerfectHashable α] [Counter α]

def init : Factory α σ where
  nextid := Counter.init
  nodes := empty
  cache := Trien.nil
  cache_ok n₁ b₁ n₂ b₂ n₃ h := by
    rw [Trien.lookup_nil] at h
    cases h
  complete x := by
    rw [empty_eq]
    exact iff_of_false (Counter.not_lt_init x) (by simp)

instance : Preorder (Factory α σ) where
  le g₁ g₂ := toList g₁.nodes ⊆ toList g₂.nodes
  le_refl g := List.Subset.refl _
  le_trans _ _ _ h₁ h₂ := List.Subset.trans h₁ h₂

theorem le_iff {g₁ g₂ : Factory α σ} : g₁ ≤ g₂ ↔
    ∀ i n, Node.interpret g₁.nodes i = some n → Node.interpret g₂.nodes i = some n := by
  unfold Node.interpret
  constructor
  · intro h i n hi
    rw [mem_lookup_iff] at hi ⊢
    exact h hi
  · intro h s hs
    have hlookup := h s.1 s.2 ((mem_lookup_iff _ _ _).2 hs)
    exact (mem_lookup_iff _ _ _).1 hlookup

variable {g : Factory α σ}

theorem lt_nextid_iff {x : α} : x < g.nextid ↔ ∃ n, Node.interpret g.nodes x = some n := by
  rw [g.complete, ← not_iff_not, ← lookup_eq_none_iff, Node.interpret, Option.eq_none_iff_forall_ne_some]
  push Not
  exact Iff.rfl

theorem nextid_notMem : g.nextid ∉ (toList g.nodes).keys := by
  rw [← g.complete]
  exact lt_irrefl _

/-- Adding a node at the next id keeps the ids in use below the next one. -/
theorem complete_kinsert (n : Node α) (x : α) :
    x < Counter.next g.nextid ↔ x ∈ (toList (kinsert g.nextid n g.nodes)).keys := by
  rw [Counter.lt_next_iff, g.complete]
  have hmem : ∀ m : σ, x ∈ (toList m).keys ↔ lookup x m ≠ none := by
    intro m
    rw [ne_eq, lookup_eq_none_iff, not_not]
  rw [hmem, hmem, lookup_kinsert]
  by_cases hx : x = g.nextid
  · rw [if_pos hx]
    exact iff_of_true (.inr hx) (Option.some_ne_none _)
  · rw [if_neg hx]
    exact or_iff_left hx

end Factory

end Exoverifier.Aig

import Mathlib.Data.Num.Basic
import Exoverifier.Data.UnorderedMap

/-! # Binary tries

Maps from positive numbers that branch on the bits of a key, lowest bit first.
Each operation is specified by the lookups of its result; the laws of an
unordered map follow from these.
-/

namespace Exoverifier

inductive Trie (α : Type) where
  | nil
  | node (o : Option α) (l r : Trie α)
  deriving DecidableEq, Repr

namespace Trie

variable {α β : Type}

/-! ## Listing -/

def mapBit0 (ns : List (Σ _ : PosNum, α)) : List (Σ _ : PosNum, α) :=
  ns.map fun s => ⟨s.1.bit0, s.2⟩

def mapBit1 (ns : List (Σ _ : PosNum, α)) : List (Σ _ : PosNum, α) :=
  ns.map fun s => ⟨s.1.bit1, s.2⟩

def toList : Trie α → List (Σ _ : PosNum, α)
  | nil => []
  | node none l r => mapBit0 l.toList ++ mapBit1 r.toList
  | node (some a) l r => ⟨.one, a⟩ :: (mapBit0 l.toList ++ mapBit1 r.toList)

def elems : Trie α → List α
  | nil => []
  | node none l r => l.elems ++ r.elems
  | node (some a) l r => a :: (l.elems ++ r.elems)

def null : Trie α → Bool
  | nil => true
  | node none l r => l.null && r.null
  | node (some _) _ _ => false

def unsingleton : Trie α → Option (Σ _ : PosNum, α)
  | nil => none
  | node none l r =>
      if l.null then r.unsingleton.map fun s => ⟨s.1.bit1, s.2⟩
      else if r.null then l.unsingleton.map fun s => ⟨s.1.bit0, s.2⟩
      else none
  | node (some a) l r => if l.null && r.null then some ⟨.one, a⟩ else none

def card : Trie α → ℕ
  | nil => 0
  | node none l r => l.card + r.card
  | node (some _) l r => l.card + r.card + 1

/-! ## Operations -/

def lookup : PosNum → Trie α → Option α
  | _, nil => none
  | .one, node o _ _ => o
  | .bit0 k, node _ l _ => lookup k l
  | .bit1 k, node _ _ r => lookup k r

/-- Insert a pair; `f` of the new and the old value resolves a conflict. -/
def insertWith (f : α → α → α) : PosNum → α → Trie α → Trie α
  | .one, a, nil => node (some a) nil nil
  | .one, a, node none l r => node (some a) l r
  | .one, a, node (some a') l r => node (some (f a a')) l r
  | .bit0 k, a, nil => node none (insertWith f k a nil) nil
  | .bit0 k, a, node o l r => node o (insertWith f k a l) r
  | .bit1 k, a, nil => node none nil (insertWith f k a nil)
  | .bit1 k, a, node o l r => node o l (insertWith f k a r)

/-- Insert a pair unless the key exists. -/
def kinsert : PosNum → α → Trie α → Trie α := insertWith fun _ old => old

/-- A smart constructor that simplifies `node none nil nil` to `nil`. -/
def mk : Option α → Trie α → Trie α → Trie α
  | none, nil, nil => nil
  | o, l, r => node o l r

def mkIfL (o : Option α) : Trie α → Trie α → Trie α
  | nil, _ => nil
  | l, r => node o l r

def mkIfR (o : Option α) (l : Trie α) : Trie α → Trie α
  | nil => nil
  | r => node o l r

/-- Insert a pair; the result is `nil` if the key has a different value. -/
def insert₂ [DecidableEq α] : PosNum → α → Trie α → Trie α
  | .one, a, nil => node (some a) nil nil
  | .one, a, node none l r => node (some a) l r
  | .one, a, node (some a') l r => if a = a' then node (some a') l r else nil
  | .bit0 k, a, nil => node none (insert₂ k a nil) nil
  | .bit0 k, a, node o l r => mkIfL o (insert₂ k a l) r
  | .bit1 k, a, nil => node none nil (insert₂ k a nil)
  | .bit1 k, a, node o l r => mkIfR o l (insert₂ k a r)

def kerase : Trie α → PosNum → Trie α
  | nil, _ => nil
  | node _ l r, .one => mk none l r
  | node o l r, .bit0 k => mk o (l.kerase k) r
  | node o l r, .bit1 k => mk o l (r.kerase k)

def ksdiff : Trie α → Trie β → Trie α
  | t₁, nil => t₁
  | nil, _ => nil
  | node o₁ l₁ r₁, node none l₂ r₂ => mk o₁ (l₁.ksdiff l₂) (r₁.ksdiff r₂)
  | node _ l₁ r₁, node (some _) l₂ r₂ => mk none (l₁.ksdiff l₂) (r₁.ksdiff r₂)

def sdiff₂ [DecidableEq α] : Trie α → Trie α → Trie α
  | t₁, nil => t₁
  | nil, _ => nil
  | node o₁ l₁ r₁, node none l₂ r₂ => mk o₁ (l₁.sdiff₂ l₂) (r₁.sdiff₂ r₂)
  | node none l₁ r₁, node _ l₂ r₂ => mk none (l₁.sdiff₂ l₂) (r₁.sdiff₂ r₂)
  | node (some a₁) l₁ r₁, node (some a₂) l₂ r₂ =>
      mk (if a₁ = a₂ then none else some a₁) (l₁.sdiff₂ l₂) (r₁.sdiff₂ r₂)

/-! ## Lookups in the results -/

theorem lookup_nil (k : PosNum) : lookup k (nil : Trie α) = none := by
  cases k <;> rfl

theorem lookup_mk (k : PosNum) (o : Option α) (l r : Trie α) :
    lookup k (mk o l r) = lookup k (node o l r) := by
  cases o <;> cases l <;> cases r <;> cases k <;> simp [mk, lookup, lookup_nil]

theorem lookup_insertWith (f : α → α → α) (k k' : PosNum) (a : α) (t : Trie α) :
    lookup k' (insertWith f k a t) =
      if k' = k then some ((lookup k t).elim a (f a)) else lookup k' t := by
  induction k generalizing k' t with
  | one =>
      rcases t with _ | ⟨_ | a', l, r⟩ <;> cases k' <;> simp [insertWith, lookup, lookup_nil]
  | bit1 k ih => rcases t with _ | ⟨o, l, r⟩ <;> cases k' <;> simp [insertWith, lookup, ih, lookup_nil]
  | bit0 k ih => rcases t with _ | ⟨o, l, r⟩ <;> cases k' <;> simp [insertWith, lookup, ih, lookup_nil]

theorem lookup_kinsert (k k' : PosNum) (a : α) (t : Trie α) :
    lookup k' (kinsert k a t) = if k' = k then some ((lookup k t).getD a) else lookup k' t := by
  rw [kinsert, lookup_insertWith]
  cases lookup k t <;> rfl

theorem lookup_kerase (k k' : PosNum) (t : Trie α) :
    lookup k' (kerase t k) = if k' = k then none else lookup k' t := by
  induction k generalizing k' t with
  | one => rcases t with _ | ⟨o, l, r⟩ <;> cases k' <;> simp [kerase, lookup_mk, lookup, lookup_nil]
  | bit1 k ih =>
      rcases t with _ | ⟨o, l, r⟩ <;> cases k' <;> simp [kerase, lookup_mk, lookup, ih, lookup_nil]
  | bit0 k ih =>
      rcases t with _ | ⟨o, l, r⟩ <;> cases k' <;> simp [kerase, lookup_mk, lookup, ih, lookup_nil]

theorem lookup_ksdiff (k : PosNum) (a : α) (t₁ : Trie α) (t₂ : Trie β) :
    lookup k (ksdiff t₁ t₂) = some a ↔ lookup k t₁ = some a ∧ lookup k t₂ = none := by
  induction k generalizing t₁ t₂ with
  | one =>
      rcases t₁ with _ | ⟨o₁, l₁, r₁⟩ <;> rcases t₂ with _ | ⟨_ | a₂, l₂, r₂⟩ <;>
        simp [ksdiff, lookup_mk, lookup]
  | bit1 k ih =>
      rcases t₁ with _ | ⟨o₁, l₁, r₁⟩ <;> rcases t₂ with _ | ⟨_ | a₂, l₂, r₂⟩ <;>
        simp [ksdiff, lookup_mk, lookup, ih]
  | bit0 k ih =>
      rcases t₁ with _ | ⟨o₁, l₁, r₁⟩ <;> rcases t₂ with _ | ⟨_ | a₂, l₂, r₂⟩ <;>
        simp [ksdiff, lookup_mk, lookup, ih]

theorem lookup_sdiff₂ [DecidableEq α] (k : PosNum) (a : α) (t₁ t₂ : Trie α) :
    lookup k (sdiff₂ t₁ t₂) = some a ↔ lookup k t₁ = some a ∧ lookup k t₂ ≠ some a := by
  induction k generalizing t₁ t₂ with
  | one =>
      rcases t₁ with _ | ⟨_ | a₁, l₁, r₁⟩ <;> rcases t₂ with _ | ⟨_ | a₂, l₂, r₂⟩ <;>
        simp [sdiff₂, lookup_mk, lookup]
      grind
  | bit1 k ih =>
      rcases t₁ with _ | ⟨_ | a₁, l₁, r₁⟩ <;> rcases t₂ with _ | ⟨_ | a₂, l₂, r₂⟩ <;>
        simp [sdiff₂, lookup_mk, lookup, ih]
  | bit0 k ih =>
      rcases t₁ with _ | ⟨_ | a₁, l₁, r₁⟩ <;> rcases t₂ with _ | ⟨_ | a₂, l₂, r₂⟩ <;>
        simp [sdiff₂, lookup_mk, lookup, ih]

/-! ## Conflicting insertions -/

theorem insertWith_ne_nil (f : α → α → α) (k : PosNum) (a : α) (t : Trie α) :
    insertWith f k a t ≠ nil := by
  cases k <;> rcases t with _ | ⟨_ | a', l, r⟩ <;> simp [insertWith]

theorem mkIfL_of_ne_nil {l : Trie α} (h : l ≠ nil) (o : Option α) (r : Trie α) :
    mkIfL o l r = node o l r := by
  cases l with
  | nil => exact absurd rfl h
  | node => rfl

theorem mkIfR_of_ne_nil {r : Trie α} (h : r ≠ nil) (o : Option α) (l : Trie α) :
    mkIfR o l r = node o l r := by
  cases r with
  | nil => exact absurd rfl h
  | node => rfl

/-- An insertion that meets another value under its key returns `nil`, any other
one inserts. -/
theorem insert₂_eq [DecidableEq α] (k : PosNum) (a : α) (t : Trie α) :
    insert₂ k a t = if (lookup k t).all (· = a) then kinsert k a t else nil := by
  induction k generalizing t with
  | one =>
      rcases t with _ | ⟨_ | a', l, r⟩
      · rfl
      · rfl
      · by_cases h : a = a'
        · subst h
          simp [insert₂, lookup, kinsert, insertWith]
        · simp [insert₂, lookup, h, Ne.symm h]
  | bit1 k ih =>
      rcases t with _ | ⟨o, l, r⟩
      · rw [insert₂, ih, lookup_nil, lookup_nil]
        rfl
      · rw [insert₂, ih, lookup]
        split
        · exact mkIfR_of_ne_nil (insertWith_ne_nil _ _ _ _) o l
        · rfl
  | bit0 k ih =>
      rcases t with _ | ⟨o, l, r⟩
      · rw [insert₂, ih, lookup_nil, lookup_nil]
        rfl
      · rw [insert₂, ih, lookup]
        split
        · exact mkIfL_of_ne_nil (insertWith_ne_nil _ _ _ _) o r
        · rfl

/-! ## The listed pairs -/

theorem mem_toList_iff (k : PosNum) (a : α) (t : Trie α) :
    ⟨k, a⟩ ∈ t.toList ↔ lookup k t = some a := by
  induction t generalizing k with
  | nil => simp [toList, lookup_nil]
  | node o l r ihl ihr =>
      cases o <;> cases k <;> simp [toList, mapBit0, mapBit1, lookup, ← ihl, ← ihr, eq_comm]

theorem nodupKeys_append {l₁ l₂ : List (Σ _ : PosNum, α)} (h₁ : l₁.NodupKeys) (h₂ : l₂.NodupKeys)
    (hdisj : ∀ k ∈ l₁.keys, k ∉ l₂.keys) : (l₁ ++ l₂).NodupKeys := by
  rw [List.NodupKeys, List.keys_append, List.nodup_append]
  exact ⟨h₁, h₂, fun k hk k' hk' heq => hdisj k hk (heq ▸ hk')⟩

theorem toList_nodupKeys (t : Trie α) : t.toList.NodupKeys := by
  have hbits : ∀ {ns₀ ns₁ : List (Σ _ : PosNum, α)}, ns₀.NodupKeys → ns₁.NodupKeys →
      (mapBit0 ns₀ ++ mapBit1 ns₁).NodupKeys := by
    intro ns₀ ns₁ h₀ h₁
    refine nodupKeys_append (h₀.map₁ PosNum.bit0 fun _ _ h => PosNum.bit0.inj h)
      (h₁.map₁ PosNum.bit1 fun _ _ h => PosNum.bit1.inj h) fun k hk hk' => ?_
    obtain ⟨s, hs, rfl⟩ := List.mem_map.1 hk
    obtain ⟨s', hs', hkey⟩ := List.mem_map.1 hk'
    obtain ⟨_, _, rfl⟩ := List.mem_map.1 hs
    obtain ⟨_, _, rfl⟩ := List.mem_map.1 hs'
    cases hkey
  induction t with
  | nil => exact List.nodupKeys_nil
  | node o l r ihl ihr =>
      cases o with
      | none => exact hbits ihl ihr
      | some a =>
          refine List.nodupKeys_cons.2 ⟨?_, hbits ihl ihr⟩
          simp [List.keys, mapBit0, mapBit1]

theorem mem_elems_iff (t : Trie α) (a : α) : a ∈ t.elems ↔ ∃ k, ⟨k, a⟩ ∈ t.toList := by
  induction t with
  | nil => simp [elems, toList]
  | node o l r ihl ihr => cases o <;> simp [elems, toList, mapBit0, mapBit1, ihl, ihr] <;> grind

theorem null_iff (t : Trie α) : t.null = true ↔ t.toList = [] := by
  induction t with
  | nil => simp [null, toList]
  | node o l r ihl ihr => cases o <;> simp [null, toList, mapBit0, mapBit1, ihl, ihr]

theorem card_eq (t : Trie α) : t.card = t.toList.length := by
  induction t with
  | nil => rfl
  | node o l r ihl ihr => cases o <;> simp [card, toList, mapBit0, mapBit1, ihl, ihr]

theorem unsingleton_iff (t : Trie α) (s : Σ _ : PosNum, α) :
    t.unsingleton = some s ↔ t.toList = [s] := by
  induction t generalizing s with
  | nil => simp [unsingleton, toList]
  | node o l r ihl ihr =>
      cases o with
      | some a => simp [unsingleton, toList, mapBit0, mapBit1, null_iff, and_comm]
      | none =>
          rw [unsingleton, toList]
          by_cases hl : l.null = true
          · rw [if_pos hl, (null_iff l).1 hl]
            simp [mapBit0, mapBit1, ihr, List.map_eq_singleton_iff]
          · rw [if_neg hl]
            by_cases hr : r.null = true
            · rw [if_pos hr, (null_iff r).1 hr]
              simp [mapBit0, mapBit1, ihl, List.map_eq_singleton_iff]
            · rw [if_neg hr]
              rw [null_iff] at hl hr
              have hlen := List.length_pos_of_ne_nil hl
              have hlen' := List.length_pos_of_ne_nil hr
              refine ⟨fun h => absurd h (by simp), fun h => ?_⟩
              have hsum := congrArg List.length h
              simp only [mapBit0, mapBit1, List.length_append, List.length_map,
                List.length_singleton] at hsum
              omega

/-! ## Tries as unordered maps -/

theorem notMem_keys_iff (k : PosNum) (t : Trie α) : k ∉ t.toList.keys ↔ lookup k t = none := by
  rw [List.notMem_keys, Option.eq_none_iff_forall_ne_some]
  exact forall_congr' fun a => not_congr (mem_toList_iff k a t)

theorem mem_kinsert_iff (k : PosNum) (a : α) (t : Trie α) (s : Σ _ : PosNum, α) :
    s ∈ (kinsert k a t).toList ↔ s ∈ t.toList ∨ k ∉ t.toList.keys ∧ s = ⟨k, a⟩ := by
  obtain ⟨k', a'⟩ := s
  rw [mem_toList_iff, mem_toList_iff, notMem_keys_iff, lookup_kinsert]
  by_cases hk : k' = k
  · subst hk
    cases lookup k' t <;> simp [eq_comm]
  · simp [hk]

theorem mem_insert₂_iff [DecidableEq α] (k : PosNum) (a : α) (t : Trie α) (s : Σ _ : PosNum, α) :
    s ∈ (insert₂ k a t).toList ↔
      (s = ⟨k, a⟩ ∨ s ∈ t.toList) ∧ (k ∈ t.toList.keys → ⟨k, a⟩ ∈ t.toList) := by
  have hkey := notMem_keys_iff k t
  rw [insert₂_eq, mem_toList_iff k a t]
  cases hlookup : lookup k t with
  | none =>
      rw [hlookup, eq_self_iff_true, iff_true] at hkey
      simp [mem_kinsert_iff, hkey, or_comm]
  | some v =>
      have hmem : k ∈ t.toList.keys := by
        by_contra h
        rw [hkey.1 h] at hlookup
        exact absurd hlookup (by simp)
      by_cases hv : v = a
      · subst hv
        have hpair := (mem_toList_iff k v t).2 hlookup
        simp only [Option.all_some, decide_true, if_true, mem_kinsert_iff, hmem, not_true_eq_false,
          false_and, or_false, implies_true, and_true]
        exact ⟨Or.inr, fun h => h.elim (fun heq => heq ▸ hpair) id⟩
      · simp [hv, hmem, toList]

theorem mem_kerase_iff (t : Trie α) (k : PosNum) (s : Σ _ : PosNum, α) :
    s ∈ (t.kerase k).toList ↔ s.1 ≠ k ∧ s ∈ t.toList := by
  obtain ⟨k', a'⟩ := s
  rw [mem_toList_iff, mem_toList_iff, lookup_kerase]
  by_cases hk : k' = k <;> simp [hk]

theorem mem_ksdiff_iff (t₁ : Trie α) (t₂ : Trie β) (s : Σ _ : PosNum, α) :
    s ∈ (t₁.ksdiff t₂).toList ↔ s ∈ t₁.toList ∧ s.1 ∉ t₂.toList.keys := by
  rw [mem_toList_iff, mem_toList_iff, lookup_ksdiff, notMem_keys_iff]

theorem mem_sdiff₂_iff [DecidableEq α] (t₁ t₂ : Trie α) (s : Σ _ : PosNum, α) :
    s ∈ (t₁.sdiff₂ t₂).toList ↔ s ∈ t₁.toList ∧ s ∉ t₂.toList := by
  rw [mem_toList_iff, mem_toList_iff, mem_toList_iff, lookup_sdiff₂]

instance : UnorderedMap PosNum α (Trie α) where
  toList := toList
  nodupKeys := toList_nodupKeys
  elems := elems
  mem_elems_iff := mem_elems_iff
  empty := nil
  empty_eq := rfl
  null := null
  null_iff := null_iff
  unsingleton := unsingleton
  unsingleton_iff := unsingleton_iff
  card := card
  card_eq := card_eq
  lookup := lookup
  mem_lookup_iff k a t := (mem_toList_iff k a t).symm
  kinsert := kinsert
  mem_kinsert_iff := mem_kinsert_iff
  insert₂ := insert₂
  mem_insert₂_iff := mem_insert₂_iff
  kerase := kerase
  mem_kerase_iff := mem_kerase_iff
  ksdiff := ksdiff
  mem_ksdiff_iff := mem_ksdiff_iff
  sdiff₂ := sdiff₂
  mem_sdiff₂_iff := mem_sdiff₂_iff

/-! ## Canonical tries -/

/-- No node is empty: a trie that the smart constructor leaves as it is. -/
def Canonical : Trie α → Prop
  | nil => True
  | node o l r => ¬ (o = none ∧ l = nil ∧ r = nil) ∧ l.Canonical ∧ r.Canonical

instance decidableCanonical [DecidableEq α] : (t : Trie α) → Decidable t.Canonical
  | nil => isTrue trivial
  | node o l r =>
      have := decidableCanonical l
      have := decidableCanonical r
      inferInstanceAs
        (Decidable (¬ (o = none ∧ l = nil ∧ r = nil) ∧ l.Canonical ∧ r.Canonical))

theorem Canonical.exists_lookup {t : Trie α} (h : t.Canonical) (hne : t ≠ nil) :
    ∃ k a, lookup k t = some a := by
  induction t with
  | nil => exact absurd rfl hne
  | node o l r ihl ihr =>
      obtain ⟨hnode, hl, hr⟩ := h
      by_cases hl' : l = nil
      · by_cases hr' : r = nil
        · cases o with
          | none => exact absurd ⟨rfl, hl', hr'⟩ hnode
          | some a => exact ⟨.one, a, rfl⟩
        · obtain ⟨k, a, hk⟩ := ihr hr hr'
          exact ⟨.bit1 k, a, hk⟩
      · obtain ⟨k, a, hk⟩ := ihl hl hl'
        exact ⟨.bit0 k, a, hk⟩

/-- Canonical tries are equal when they hold the same pairs. -/
theorem Canonical.ext {t₁ t₂ : Trie α} (h₁ : t₁.Canonical) (h₂ : t₂.Canonical)
    (h : ∀ k, lookup k t₁ = lookup k t₂) : t₁ = t₂ := by
  induction t₁ generalizing t₂ with
  | nil =>
      by_contra hne
      obtain ⟨k, a, hk⟩ := h₂.exists_lookup (Ne.symm hne)
      rw [← h k, lookup_nil] at hk
      exact absurd hk (by simp)
  | node o₁ l₁ r₁ ihl ihr =>
      cases t₂ with
      | nil =>
          obtain ⟨k, a, hk⟩ := h₁.exists_lookup (by simp)
          rw [h k, lookup_nil] at hk
          exact absurd hk (by simp)
      | node o₂ l₂ r₂ =>
          have ho : o₁ = o₂ := h .one
          have hl : l₁ = l₂ := ihl h₁.2.1 h₂.2.1 fun k => h (.bit0 k)
          have hr : r₁ = r₂ := ihr h₁.2.2 h₂.2.2 fun k => h (.bit1 k)
          rw [ho, hl, hr]

theorem Canonical.insertWith {t : Trie α} (h : t.Canonical) (f : α → α → α) (k : PosNum) (a : α) :
    (insertWith f k a t).Canonical := by
  induction k generalizing t with
  | one => rcases t with _ | ⟨_ | a', l, r⟩ <;> simp_all [Trie.insertWith, Canonical]
  | bit1 k ih =>
      have hne := insertWith_ne_nil f k a
      rcases t with _ | ⟨o, l, r⟩
      · exact ⟨fun hnil => hne nil hnil.2.2, trivial, ih trivial⟩
      · exact ⟨fun hnil => hne r hnil.2.2, h.2.1, ih h.2.2⟩
  | bit0 k ih =>
      have hne := insertWith_ne_nil f k a
      rcases t with _ | ⟨o, l, r⟩
      · exact ⟨fun hnil => hne nil hnil.2.1, ih trivial, trivial⟩
      · exact ⟨fun hnil => hne l hnil.2.1, ih h.2.1, h.2.2⟩

theorem Canonical.kinsert {t : Trie α} (h : t.Canonical) (k : PosNum) (a : α) :
    (kinsert k a t).Canonical := h.insertWith _ k a

end Trie

end Exoverifier

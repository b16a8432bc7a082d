import Mathlib.Data.Vector.Basic
import Exoverifier.Data.Trie

/-! # Nested tries

A trie of tries of any depth, indexed by one positive number for each level. An
update is specified by the lookups of its result.
-/

namespace Exoverifier

/-- Override any old value under the key. -/
def Trie.update {α : Type} : PosNum → α → Trie α → Trie α := Trie.insertWith fun new _ => new

theorem Trie.lookup_update {α : Type} (k k' : PosNum) (a : α) (t : Trie α) :
    Trie.lookup k' (Trie.update k a t) = if k' = k then some a else Trie.lookup k' t := by
  rw [Trie.update, Trie.lookup_insertWith]
  cases Trie.lookup k t <;> rfl

/-- There are `n + 1` levels. -/
@[reducible]
def Trien (α : Type) : ℕ → Type
  | 0 => Trie α
  | n + 1 => Trie (Trien α n)

namespace Trien

variable {α : Type}

def nil : {n : ℕ} → Trien α n
  | 0 => Trie.nil
  | _ + 1 => Trie.nil

def update : {n : ℕ} → Trien α n → List.Vector PosNum (n + 1) → α → Trien α n
  | 0, t, v, x => Trie.update v.head x t
  | _ + 1, t, v, x =>
      let subtree := (Trie.lookup v.head t).getD nil
      Trie.update v.head (update subtree v.tail x) t

def lookup : {n : ℕ} → Trien α n → List.Vector PosNum (n + 1) → Option α
  | 0, t, v => Trie.lookup v.head t
  | _ + 1, t, v => do
      let t' ← Trie.lookup v.head t
      lookup t' v.tail

theorem lookup_nil : ∀ {n : ℕ} (v : List.Vector PosNum (n + 1)),
    lookup (nil : Trien α n) v = none
  | 0, v => Trie.lookup_nil v.head
  | n + 1, v => by
      unfold lookup nil
      rw [Trie.lookup_nil]
      rfl

theorem cons_eq_iff {n : ℕ} (v w : List.Vector PosNum (n + 1)) :
    w = v ↔ w.head = v.head ∧ w.tail = v.tail := by
  constructor
  · intro h
    rw [h]
    exact ⟨rfl, rfl⟩
  · intro h
    rw [← List.Vector.cons_head_tail w, h.1, h.2, List.Vector.cons_head_tail]

theorem lookup_update : ∀ {n : ℕ} (t : Trien α n) (v w : List.Vector PosNum (n + 1)) (x : α),
    lookup (update t v x) w = if w = v then some x else lookup t w
  | 0, t, v, w, x => by
      have hkey : w = v ↔ w.head = v.head := by
        rw [cons_eq_iff, List.Vector.eq_nil w.tail, List.Vector.eq_nil v.tail]
        exact and_iff_left rfl
      unfold lookup update
      rw [Trie.lookup_update, if_congr hkey rfl rfl]
  | n + 1, t, v, w, x => by
      unfold lookup update
      rw [Trie.lookup_update]
      by_cases hhead : w.head = v.head
      · have hkey : w = v ↔ w.tail = v.tail := by
          rw [cons_eq_iff]
          exact and_iff_right hhead
        rw [if_pos hhead, if_congr hkey rfl rfl, hhead]
        show lookup (update _ v.tail x) w.tail = _
        rw [lookup_update]
        cases Trie.lookup v.head t with
        | none => rw [Option.getD_none, lookup_nil]; rfl
        | some t' => rfl
      · rw [if_neg hhead, if_neg fun h => hhead ((cons_eq_iff v w).1 h).1]

end Trien

end Exoverifier

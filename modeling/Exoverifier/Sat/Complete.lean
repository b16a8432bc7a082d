import Mathlib.Data.Fintype.EquivFin
import Exoverifier.Sat.Verdict

/-! # Completeness of proof checking

Every unsatisfiable formula has a proof that the checker accepts. The proof decides
the variables of the formula one after the other. Where all are decided, some
clause of the formula is false; two clauses that differ in the sign of the variable
decided last give a clause without it, by one unit and one conflict. Each addition
stands for one decision, so there are fewer than the assignments to the variables.
-/

namespace Exoverifier.Sat

open UnorderedMap

variable {α β γ : Type} [Clause α β] [Formula PosNum β γ] [DecidableEq α]

/-! ## Additions -/

/-- An addition of the clause of some list, with two hints. -/
def IsAddition (a : Action α β PosNum γ) : Prop :=
  ∃ k ls k₁ k₂, a = .rup k (Clause.ofList ls) [k₁, k₂]

/-- Accepted additions, fewer than a bound, lead from one formula to another. -/
def Derives (n : ℕ) (f g : γ) : Prop :=
  ∃ as : List (Action α β PosNum γ), (∀ a ∈ as, IsAddition a) ∧ as.length < n ∧
    Runs (fun f _ => f) f as g

theorem Derives.refl (f : γ) : Derives 1 f f :=
  ⟨[], List.forall_mem_nil _, Nat.one_pos, .nil⟩

theorem Derives.trans {m n : ℕ} {f g h : γ} (hfg : Derives m f g) (hgh : Derives n g h) :
    Derives (m + n - 1) f h := by
  obtain ⟨as, has, hlen, hruns⟩ := hfg
  obtain ⟨as', has', hlen', hruns'⟩ := hgh
  refine ⟨as ++ as', ?_, ?_, hruns.trans hruns'⟩
  · exact List.forall_mem_append.2 ⟨has, has'⟩
  · rw [List.length_append]
    omega

theorem Derives.mono {m n : ℕ} {f g : γ} (h : Derives m f g) (hmn : m ≤ n) : Derives n f g := by
  obtain ⟨as, has, hlen, hruns⟩ := h
  exact ⟨as, has, hlen.trans_le hmn, hruns⟩

theorem Derives.lookup {n : ℕ} {f g : γ} (h : Derives n f g) {k : PosNum} {c : β}
    (hk : UnorderedMap.lookup k f = some c) : UnorderedMap.lookup k g = some c := by
  obtain ⟨as, -, -, hruns⟩ := h
  induction hruns with
  | nil => exact hk
  | rup _ _ ih =>
      apply ih
      rw [mem_lookup_iff] at hk ⊢
      exact (mem_kinsert_iff _ _ _ _).2 (Or.inl hk)
  | del _ ih => exact ih hk

theorem infinite_posNum : Infinite PosNum := by
  refine Infinite.of_injective PosNum.ofNatSucc fun m n h => ?_
  have hcast := congrArg (fun k : PosNum => (k : ℕ)) h
  simpa only [toNat_ofNatSucc, Nat.add_right_cancel_iff] using hcast

theorem exists_fresh (f : γ) : ∃ k, k ∉ (toList f).keys := by
  have := infinite_posNum
  obtain ⟨k, hk⟩ := Infinite.exists_notMem_finset (toList f).keys.toFinset
  exact ⟨k, fun hmem => hk (List.mem_toFinset.2 hmem)⟩

/-! ## Resolution -/

/-- Some clause of the formula has its literals in the list. -/
def Within (ls : List (Literal α)) (f : γ) : Prop :=
  ∃ k c, lookup k f = some c ∧ ∀ l ∈ toList c, l ∈ ls

theorem Within.derives {ls : List (Literal α)} {n : ℕ} {f g : γ} (h : Within ls f)
    (hfg : Derives n f g) : Within ls g := by
  obtain ⟨k, c, hk, hc⟩ := h
  exact ⟨k, c, hfg.lookup hk, hc⟩

/-- Two clauses that hold a variable with different signs check a clause of the
other literals. -/
theorem rup_resolvent {ls : List (Literal α)} {v : α} {f : γ} {k₁ k₂ : PosNum} {c₁ c₂ : β}
    (hls : (v :: ls.keys).Nodup) (hk₁ : lookup k₁ f = some c₁) (hk₂ : lookup k₂ f = some c₂)
    (hc₁ : ∀ l ∈ toList c₁, l ∈ (⟨v, false⟩ : Literal α) :: ls)
    (hc₂ : ∀ l ∈ toList c₂, l ∈ (⟨v, true⟩ : Literal α) :: ls) (hv : ⟨v, false⟩ ∈ toList c₁) :
    rup f [k₁, k₂] (Clause.ofList ls) = .ok := by
  obtain ⟨hfresh, hnodup⟩ := List.nodup_cons.1 hls
  have hmem : ∀ l, l ∈ toList (Clause.ofList ls : β) ↔ l ∈ ls := by
    intro l
    rw [Clause.mem_ofList_iff, isLast_iff_mem (not_hasOpposite_of_nodupKeys hnodup)]
  have hkeys : v ∉ (toList (Clause.ofList ls : β)).keys := by
    intro h
    obtain ⟨b, hb⟩ := List.exists_of_mem_keys h
    exact hfresh (List.mem_keys.2 ⟨b, (hmem _).1 hb⟩)
  have hunit : IsUnit c₁ (Clause.ofList ls : β) ⟨v, false⟩ := by
    intro l
    constructor
    · rintro ⟨hl, hnew⟩
      rw [hmem] at hnew
      exact (List.mem_cons.1 (hc₁ l hl)).resolve_right hnew
    · rintro rfl
      exact ⟨hv, fun h => hkeys (List.mem_keys.2 ⟨_, h⟩)⟩
  have hconflict : Conflict c₂ (insert₂ v true (Clause.ofList ls : β)) := by
    intro l hl
    rw [mem_insert₂_iff, hmem]
    exact ⟨List.mem_cons.1 (hc₂ l hl), fun h => absurd h hkeys⟩
  rw [rup_cons_unit hk₁ hunit]
  exact rup_cons_conflict hk₂ hconflict

/-- Clauses for both signs of a variable lead to a clause without it. -/
theorem exists_derives_resolvent {ls : List (Literal α)} {v : α} {f : γ}
    (hls : (v :: ls.keys).Nodup) (h₁ : Within (⟨v, false⟩ :: ls) f)
    (h₂ : Within (⟨v, true⟩ :: ls) f) : ∃ g, Derives 2 f g ∧ Within ls g := by
  obtain ⟨k₁, c₁, hk₁, hc₁⟩ := h₁
  obtain ⟨k₂, c₂, hk₂, hc₂⟩ := h₂
  by_cases hv : (⟨v, false⟩ : Literal α) ∈ toList c₁
  · obtain ⟨k, hk⟩ := exists_fresh f
    have hrup := rup_resolvent hls hk₁ hk₂ hc₁ hc₂ hv
    refine ⟨kinsert k (Clause.ofList ls) f, ?_, k, Clause.ofList ls, ?_, ?_⟩
    · refine ⟨[.rup k (Clause.ofList ls) [k₁, k₂]], ?_, Nat.one_lt_two, ?_⟩
      · exact List.forall_mem_singleton.2 ⟨k, ls, k₁, k₂, rfl⟩
      · exact .rup (rup_eq_iff.1 hrup) .nil
    · rw [mem_lookup_iff, mem_kinsert_iff]
      exact .inr ⟨hk, rfl⟩
    · exact fun l hl => (Clause.mem_ofList_iff.1 hl).mem
  · -- The first clause does not need the variable.
    refine ⟨f, (Derives.refl f).mono one_le_two, k₁, c₁, hk₁, fun l hl => ?_⟩
    rcases List.mem_cons.1 (hc₁ l hl) with rfl | hmem
    · exact absurd hl hv
    · exact hmem

/-! ## Unsatisfiable formulas -/

/-- When all variables are decided, a clause of the formula is false. -/
theorem within_of_unsat {f : γ} (hf : Formula.Unsat (α := α) f) {ls : List (Literal α)}
    (hvars : ∀ c ∈ elems f, ∀ l ∈ toList c, l.1 ∈ ls.keys) : Within ls f := by
  have hsat := hf fun a => decide (⟨a, true⟩ ∈ ls)
  rw [← Bool.not_eq_true, Formula.sat_iff_forall] at hsat
  push Not at hsat
  obtain ⟨k, c, hc, hfalse⟩ := hsat
  refine ⟨k, c, (mem_lookup_iff k c f).2 hc, fun l hl => ?_⟩
  obtain ⟨b, hb⟩ := List.exists_of_mem_keys (hvars c ((mem_elems_iff f c).2 ⟨k, hc⟩) l hl)
  have hsign : Literal.sat (fun a => decide (⟨a, true⟩ ∈ ls)) l = false := by
    rw [Clause.sat, ne_eq, Bool.not_eq_true, List.any_eq_false] at hfalse
    exact Bool.eq_false_iff.2 (hfalse l hl)
  obtain ⟨a, s⟩ := l
  cases s with
  | true =>
      have htrue : (⟨a, true⟩ : Literal α) ∈ ls := by simpa [Literal.sat] using hsign
      exact htrue
  | false =>
      have hnot : (⟨a, true⟩ : Literal α) ∉ ls := by simpa [Literal.sat] using hsign
      cases b with
      | true => exact absurd hb hnot
      | false => exact hb

/-- Deciding one variable after the other reaches every list of decisions. -/
theorem exists_derives_within {f : γ} (hf : Formula.Unsat (α := α) f) (vs : List α)
    {ls : List (Literal α)} (hls : (vs ++ ls.keys).Nodup)
    (hvars : ∀ c ∈ elems f, ∀ l ∈ toList c, l.1 ∈ vs ++ ls.keys) {n : ℕ} {g : γ}
    (hg : Derives n f g) : ∃ g', Derives (2 ^ vs.length) g g' ∧ Within ls g' := by
  induction vs generalizing ls n g with
  | nil => exact ⟨g, .refl g, (within_of_unsat hf hvars).derives hg⟩
  | cons v vs ih =>
      have hmove : ∀ b, (vs ++ ((⟨v, b⟩ : Literal α) :: ls).keys).Perm (v :: vs ++ ls.keys) :=
        fun _ => List.perm_middle
      have hbranch : ∀ (b : Bool) {n : ℕ} {g : γ}, Derives n f g →
          ∃ g', Derives (2 ^ vs.length) g g' ∧ Within (⟨v, b⟩ :: ls) g' := by
        intro b n g hg
        refine ih ((hmove b).nodup_iff.2 hls) (fun c hc l hl => ?_) hg
        exact (hmove b).mem_iff.2 (hvars c hc l hl)
      obtain ⟨g₁, hg₁, h₁⟩ := hbranch false hg
      obtain ⟨g₂, hg₂, h₂⟩ := hbranch true (hg.trans hg₁)
      have hnodup : (v :: ls.keys).Nodup := by
        refine List.Nodup.sublist ?_ hls
        exact List.Sublist.cons_cons v (List.sublist_append_right vs ls.keys)
      obtain ⟨g₃, hg₃, h₃⟩ := exists_derives_resolvent hnodup (h₁.derives hg₂) h₂
      refine ⟨g₃, ((hg₁.trans hg₂).trans hg₃).mono ?_, h₃⟩
      -- One addition joins what the two branches add.
      have hpos := Nat.two_pow_pos vs.length
      rw [List.length_cons, Nat.pow_succ]
      omega

/-- The variables of a formula. -/
def vars (f : γ) : List α := ((elems f).flatMap fun c => (toList c).keys).dedup

theorem mem_vars {f : γ} {c : β} (hc : c ∈ elems f) {l : Literal α} (hl : l ∈ toList c) :
    l.1 ∈ vars f :=
  List.mem_dedup.2 (List.mem_flatMap.2 ⟨c, hc, List.mem_keys_of_mem hl⟩)

/-- An unsatisfiable formula is refuted by additions with two hints, fewer than the
assignments to its variables. -/
theorem exists_rupCheck_of_unsat {f : γ} (hf : Formula.Unsat (α := α) f) :
    ∃ as : List (Action α β PosNum γ), (∀ a ∈ as, IsAddition a) ∧
      as.length < 2 ^ (vars f).length ∧ rupCheck f as = .ok := by
  have hnodup : (vars f ++ ([] : List (Literal α)).keys).Nodup := by
    rw [List.keys_nil, List.append_nil]
    exact List.nodup_dedup _
  have hvars : ∀ c ∈ elems f, ∀ l ∈ toList c, l.1 ∈ vars f ++ ([] : List (Literal α)).keys :=
    fun c hc l hl => List.mem_append_left _ (mem_vars hc hl)
  obtain ⟨g, ⟨as, hadditions, hlen, hruns⟩, k, c, hk, hc⟩ :=
    exists_derives_within hf (vars f) hnodup hvars (.refl f)
  refine ⟨as, hadditions, hlen, refute_eq_iff.2 ⟨g, hruns, Or.inl ⟨c, ?_, ?_⟩⟩⟩
  · exact (mem_elems_iff g c).2 ⟨k, (mem_lookup_iff k c g).1 hk⟩
  · exact List.eq_nil_iff_forall_not_mem.2 fun l hl => List.not_mem_nil (hc l hl)

/-- The checker accepts some proof of a formula exactly when it is unsatisfiable, and
then it accepts a list of additions with two hints, fewer than the assignments to
the variables of the formula. -/
theorem exists_rupCheck_iff (f : γ) :
    ((∃ as : List (Action α β PosNum γ), rupCheck f as = .ok) ↔ Formula.Unsat (α := α) f) ∧
      (Formula.Unsat (α := α) f ↔ ∃ as : List (Action α β PosNum γ), (∀ a ∈ as, IsAddition a) ∧
        as.length < 2 ^ (vars f).length ∧ rupCheck f as = .ok) := by
  refine ⟨⟨?_, ?_⟩, exists_rupCheck_of_unsat, ?_⟩
  · rintro ⟨as, has⟩
    exact unsat_of_rupCheck has
  · intro hf
    obtain ⟨as, -, -, has⟩ := exists_rupCheck_of_unsat hf
    exact ⟨as, has⟩
  · rintro ⟨as, -, -, has⟩
    exact unsat_of_rupCheck has

/-! ## Texts -/

/-- Additions are printed and parsed without a loss. -/
theorem printable_of_isAddition {a : DefaultAction} (h : IsAddition a) : a.Printable := by
  obtain ⟨k, ls, k₁, k₂, rfl⟩ := h
  exact Clause.ofList_canonical ls

theorem length_of_rupChecker {comments : List String} (h : ∀ s ∈ comments, '\n' ∉ s.toList)
    {nbvar n : ℕ} {lss : List (List (Literal PosNum))} {proof : List Char}
    (hok : rupChecker (Parser.dimacsText comments nbvar n lss) proof = .ok .ok) :
    lss.length = n := by
  by_contra hn
  unfold rupChecker at hok
  rw [Parser.run_dimacs_of_miscount h nbvar hn] at hok
  cases hok

/-- The text of a formula has an accepted text of a proof exactly when it holds as many
lists as its problem line says, and no assignment satisfies the last literals of each
variable in all of them. -/
theorem exists_rupChecker_iff {comments : List String} (h : ∀ s ∈ comments, '\n' ∉ s.toList)
    (nbvar n : ℕ) (lss : List (List (Literal PosNum))) :
    (∃ proof, rupChecker (Parser.dimacsText comments nbvar n lss) proof = .ok .ok) ↔
      lss.length = n ∧ ∀ p, ∃ ls ∈ lss, ∀ l, IsLast ls l → Literal.sat p l = false := by
  constructor
  · rintro ⟨proof, hok⟩
    exact ⟨length_of_rupChecker h hok, unsat_last_of_rupChecker h hok⟩
  · rintro ⟨rfl, hunsat⟩
    have hf : Formula.Unsat (α := PosNum) (ofLists lss : Trie (Trie Bool)) := by
      intro p
      rw [Bool.eq_false_iff, ne_eq, sat_ofLists_iff]
      intro hsat
      obtain ⟨ls, hls, hfalse⟩ := hunsat p
      obtain ⟨l, hl, htrue⟩ := hsat ls hls
      exact Bool.false_ne_true ((hfalse l hl).symm.trans htrue)
    obtain ⟨as, hadditions, -, has⟩ := exists_rupCheck_of_unsat hf
    have hprintable : ∀ a ∈ as, a.Printable := fun a ha =>
      printable_of_isAddition (hadditions a ha)
    exact ⟨_, (rupChecker_printed h nbvar lss as hprintable).trans (congrArg Except.ok has)⟩

/-- The opposite literals of the first list are one literal to the checker. -/
theorem exists_rupChecker_iff_opposite :
    let lss : List (List (Literal PosNum)) := [[⟨1, false⟩, ⟨1, true⟩], [⟨1, false⟩]]
    (∃ proof, rupChecker (Parser.dimacsText ["one variable"] 1 2 lss) proof = .ok .ok) ↔
      lss.length = 2 ∧ ∀ p, ∃ ls ∈ lss, ∀ l, IsLast ls l → Literal.sat p l = false :=
  exists_rupChecker_iff (by decide) 1 2 _

end Exoverifier.Sat

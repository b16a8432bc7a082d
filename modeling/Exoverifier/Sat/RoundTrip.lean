import Mathlib.Data.Num.Lemmas
import Exoverifier.Sat.Parser

/-! # Printed proofs are read back

Every word of a printed action ends in a space, apart from the `0` that ends the
action, so the parsers of the words never look past their own word. The three
kinds of actions share the words up to the first that tells them apart. The text of
every action is read back as some action, and as the same one if it is printable.
-/

namespace Exoverifier.Sat

open UnorderedMap

/-! ## Canonical clauses and deletion sets -/

theorem Clause.ofList_canonical (ls : List (Literal PosNum)) :
    (Clause.ofList ls : Trie Bool).Canonical := by
  induction ls with
  | nil => exact trivial
  | cons l ls ih => exact ih.kinsert l.1 l.2

/-- A canonical clause is built from every list of its literals. -/
theorem Clause.ofList_eq {c : Trie Bool} (hc : c.Canonical) {ls : List (Literal PosNum)}
    (h : ∀ l, l ∈ ls ↔ l ∈ c.toList) : Clause.ofList ls = c := by
  have hopp : ¬ HasOpposite ls := by
    rintro ⟨a, htrue, hfalse⟩
    exact absurd (c.toList_nodupKeys.eq_of_mk_mem ((h _).1 htrue) ((h _).1 hfalse)) (by decide)
  apply (Clause.ofList_canonical ls).ext hc
  intro k
  refine Option.ext fun b => ?_
  rw [← Trie.mem_toList_iff, ← Trie.mem_toList_iff]
  calc ⟨k, b⟩ ∈ (Clause.ofList ls : Trie Bool).toList
      ↔ IsLast ls ⟨k, b⟩ := Clause.mem_ofList_iff (β := Trie Bool)
    _ ↔ ⟨k, b⟩ ∈ ls := isLast_iff_mem hopp
    _ ↔ ⟨k, b⟩ ∈ c.toList := h _

/-- The pivot of a clause and its other literals, as a proof lists them. -/
theorem Clause.ofList_pivot {c : Trie Bool} (hc : c.Canonical) {l : Literal PosNum}
    (hl : l ∈ c.toList) : Clause.ofList (l :: (c.kerase l.1).toList) = c := by
  apply Clause.ofList_eq hc
  intro l'
  rw [List.mem_cons, Trie.mem_kerase_iff]
  constructor
  · rintro (rfl | ⟨-, hmem⟩)
    · exact hl
    · exact hmem
  · intro hmem
    by_cases hvar : l'.1 = l.1
    · exact Or.inl (c.toList_nodupKeys.eq_of_fst_eq hmem hl hvar)
    · exact Or.inr ⟨hvar, hmem⟩

/-- A set of ids: each of them is mapped to the empty clause. -/
theorem foldl_kinsert_canonical (ks : List PosNum) {f : Trie (Trie Bool)} (hf : f.Canonical) :
    (ks.foldl (fun f k => f.kinsert k .nil) f).Canonical := by
  induction ks generalizing f with
  | nil => exact hf
  | cons k ks ih => exact ih (hf.kinsert k .nil)

theorem lookup_foldl_kinsert (ks : List PosNum) (f : Trie (Trie Bool)) (k : PosNum) :
    (ks.foldl (fun f k => f.kinsert k .nil) f).lookup k =
      if k ∈ ks then some ((f.lookup k).getD .nil) else f.lookup k := by
  induction ks generalizing f with
  | nil => rfl
  | cons k' ks ih =>
      rw [List.foldl_cons, ih, Trie.lookup_kinsert]
      by_cases hk : k = k'
      · subst hk
        simp
      · simp [hk]

theorem lookup_foldl_nil (ks : List PosNum) (k : PosNum) :
    (ks.foldl (fun f k => f.kinsert k .nil) (.nil : Trie (Trie Bool))).lookup k =
      if k ∈ ks then some .nil else none := by
  rw [lookup_foldl_kinsert, Trie.lookup_nil]
  rfl

/-- A canonical deletion set is read back from its ids. -/
theorem foldl_kinsert_keys {f : Trie (Trie Bool)} (hf : f.Canonical)
    (h : ∀ s ∈ f.toList, s.2 = .nil) :
    f.toList.keys.foldl (fun f k => f.kinsert k .nil) .nil = f := by
  have hnil : (Trie.nil : Trie (Trie Bool)).Canonical := trivial
  apply (foldl_kinsert_canonical _ hnil).ext hf
  intro k
  rw [lookup_foldl_nil]
  by_cases hk : k ∈ f.toList.keys
  · obtain ⟨c, hc⟩ := List.exists_of_mem_keys hk
    have hempty : c = .nil := h _ hc
    rw [if_pos hk, (Trie.mem_toList_iff k c f).1 hc, hempty]
  · rw [if_neg hk, (Trie.notMem_keys_iff k f).1 hk]

/-- The actions that the printer writes without loss. -/
def Action.Printable : DefaultAction → Prop
  | .rup _ c _ => c.Canonical
  | .rat _ l c _ hints => c.Canonical ∧ l ∈ c.toList ∧ hints ≠ []
  | .del _ f => f.Canonical ∧ ∀ s ∈ f.toList, s.2 = .nil

instance : DecidablePred Action.Printable
  | .rup _ c _ => inferInstanceAs (Decidable c.Canonical)
  | .rat _ l c _ hints => inferInstanceAs (Decidable (c.Canonical ∧ l ∈ c.toList ∧ hints ≠ []))
  | .del _ f => inferInstanceAs (Decidable (f.Canonical ∧ ∀ s ∈ f.toList, s.2 = .nil))

/-- The action that the text of an action is read back as: clauses and deletion sets
become canonical, and resolution without hints has the text of a propagation. -/
def Action.reread : DefaultAction → DefaultAction
  | .rup k c hints => .rup k (Clause.ofList c.toList) hints
  | .rat k l c ks [] => .rup k (Clause.ofList (l :: (c.kerase l.1).toList)) ks
  | .rat k l c ks (h :: hs) => .rat k l (Clause.ofList (l :: (c.kerase l.1).toList)) ks (h :: hs)
  | .del k f => .del k (f.toList.keys.foldl (fun f k => f.kinsert k .nil) .nil)

theorem Clause.mem_ofList_pivot (l : Literal PosNum) (c : Trie Bool) :
    l ∈ (Clause.ofList (l :: (c.kerase l.1).toList) : Trie Bool).toList := by
  refine (Clause.mem_ofList_iff (β := Trie Bool)).2 (isLast_cons.2 (Or.inr ⟨?_, rfl⟩))
  intro hmem
  obtain ⟨b, hb⟩ := List.exists_of_mem_keys hmem
  exact ((Trie.mem_kerase_iff _ _ _).1 hb).1 rfl

/-- Exactly the printable actions are read back as they are. -/
theorem Action.reread_eq_iff {a : DefaultAction} : a.reread = a ↔ a.Printable := by
  cases a with
  | rup k c hints =>
      simp only [reread, Printable, rup.injEq, true_and, and_true]
      constructor
      · intro heq
        exact heq ▸ Clause.ofList_canonical _
      · exact fun hc => Clause.ofList_eq hc fun _ => Iff.rfl
  | rat k l c ks hints =>
      cases hints with
      | nil => simp only [reread, Printable, reduceCtorEq, ne_eq, not_true, and_false]
      | cons h hs =>
          simp only [reread, Printable, rat.injEq, true_and, and_true, ne_eq, reduceCtorEq,
            not_false_iff]
          constructor
          · intro heq
            have hmem := Clause.mem_ofList_pivot l c
            rw [heq] at hmem
            exact ⟨heq ▸ Clause.ofList_canonical _, hmem⟩
          · exact fun hc => Clause.ofList_pivot hc.1 hc.2
  | del k f =>
      simp only [reread, Printable, del.injEq, true_and]
      constructor
      · intro heq
        refine ⟨heq ▸ foldl_kinsert_canonical _ trivial, fun s hs => ?_⟩
        have hlookup := (Trie.mem_toList_iff _ _ _).1 hs
        rw [← heq, lookup_foldl_nil] at hlookup
        split at hlookup
        · exact (Option.some.inj hlookup).symm
        · cases hlookup
      · exact fun hf => foldl_kinsert_keys hf.1 hf.2

/-! ## Words -/

namespace Parser

open Library Library.Parser

def isSpace (c : Char) : Bool := [' ', '\t', '\n', Char.ofNat 0x0b, Char.ofNat 0x0d].contains c

def isDecimal (c : Char) : Bool := '0' ≤ c && c ≤ '9'

def isPositive (c : Char) : Bool := '1' ≤ c && c ≤ '9'

theorem reads_spaces {s rest : List Char} (hs : ∀ c ∈ s, isSpace c = true)
    (hrest : Stops isSpace rest) : Reads spaces s () rest := by
  have hall : ReadsAll space (s.flatMap fun c => [c]) s rest := by
    apply ReadsAll.flatMap fun _ => True
    · exact fun _ _ => by simp
    · exact fun c hc t _ => (reads_sat (q := isSpace) (hs c hc) t).decorateErrors _
    · exact fun _ _ _ => trivial
    · trivial
    · exact (declines_sat (q := isSpace) hrest).decorateErrors _
  rw [List.flatMap_singleton'] at hall
  exact hall.many'

theorem reads_space {c : Char} {rest : List Char} (hc : isSpace c = true)
    (hrest : Stops isSpace rest) : Reads spaces [c] () rest := reads_spaces (by simpa using hc) hrest

theorem reads_seqLeft_space {α : Type} {p : Parser α} {s rest : List Char} {c : Char} {a : α}
    (hc : isSpace c = true) (hrest : Stops isSpace rest) (h : Reads p s a (c :: rest)) :
    Reads (p <* spaces) (s ++ [c]) a rest := h.seqLeft (reads_space hc hrest)

/-- The text of an id: digits, the first of them not zero. -/
theorem exists_repr (k : PosNum) : ∃ d ds, (Action.reprId k).toList = (d :: ds).map Nat.digitChar ∧
    (∀ e ∈ d :: ds, e < 10) ∧ 0 < d ∧
      ds.foldl (fun sum digit => sum * 10 + digit) d = (k : ℕ) := by
  obtain ⟨d, ds, htext, hdigits, hpos, hvalue⟩ := exists_digits (k : ℕ)
  exact ⟨d, ds, Nat.toList_repr.trans htext, hdigits, hpos k.to_nat_pos, hvalue⟩

theorem stops_repr {q : Char → Bool} (hq : ∀ d < 10, 0 < d → q d.digitChar = false)
    (k : PosNum) (rest : List Char) : Stops q ((Action.reprId k).toList ++ rest) := by
  obtain ⟨d, ds, htext, hdigits, hpos, -⟩ := exists_repr k
  rw [htext, List.map_cons, List.cons_append, stops_cons]
  exact hq d (hdigits d (by simp)) hpos

theorem repeat_succ_toNat (n : ℕ) (p : PosNum) : ((Nat.repeat PosNum.succ n p : PosNum) : ℕ) = p + n := by
  induction n with
  | zero => rfl
  | succ n ih => rw [Nat.repeat, PosNum.succ_to_nat, ih, Nat.add_assoc]

theorem foldl_digits_toNat (ds : List ℕ) (p : PosNum) :
    ((ds.foldl (fun sum digit => Nat.repeat PosNum.succ digit (sum * 10)) p : PosNum) : ℕ) =
      ds.foldl (fun sum digit => sum * 10 + digit) (p : ℕ) := by
  induction ds generalizing p with
  | nil => rfl
  | cons d ds ih =>
      rw [List.foldl_cons, List.foldl_cons, ih, repeat_succ_toNat, PosNum.mul_to_nat]
      rfl

theorem digitChar_positive : ∀ d < 10, 0 < d →
    isPositive d.digitChar = true ∧ (PosNum.ofNat (d.digitChar.toNat - '0'.toNat) : ℕ) = d := by
  decide

theorem reads_positive (k : PosNum) {rest : List Char} (h : Stops isDecimal rest) :
    Reads positive (Action.reprId k).toList k rest := by
  obtain ⟨d, ds, htext, hdigits, hpos, hvalue⟩ := exists_repr k
  obtain ⟨hfirst, hd⟩ := digitChar_positive d (hdigits d (by simp)) hpos
  have hmany := (readsAll_digit (fun e he => hdigits e (List.mem_cons_of_mem d he)) h).many
  rw [htext, List.map_cons]
  have hread := Reads.bind (f := fun c => many digit >>= fun digits => Pure.pure (digits.foldl
      (fun sum digit => Nat.repeat PosNum.succ digit (sum * 10))
      (PosNum.ofNat (c.toNat - '0'.toNat))))
    (reads_sat (q := isPositive) hfirst _) (hmany.bind_pure _)
  have hk : ds.foldl (fun sum digit => Nat.repeat PosNum.succ digit (sum * 10))
      (PosNum.ofNat (d.digitChar.toNat - '0'.toNat)) = k := by
    rw [← PosNum.to_nat_inj, foldl_digits_toNat, hd, hvalue]
  rw [hk] at hread
  exact hread.decorateErrors _

theorem declines_positive {rest : List Char} (h : Stops isPositive rest) :
    Declines positive rest := ((declines_sat h).bind _).decorateErrors _

theorem reads_literal (l : Literal PosNum) {rest : List Char} (h : Stops isDecimal rest) :
    Reads literal l.dimacs.toList l rest := by
  obtain ⟨a, b⟩ := l
  have hread := reads_positive a h
  cases b with
  | false => exact (hread.map fun a => (⟨a, false⟩ : Literal PosNum)).orElse_left _
  | true =>
      have htext : (Literal.dimacs ⟨a, true⟩).toList = '-' :: (Action.reprId a).toList := by
        simp [Literal.dimacs, Action.reprId]
      have hneg := ((reads_ch '-' _).seqRight hread).map fun a => (⟨a, true⟩ : Literal PosNum)
      rw [htext]
      refine Reads.orElse_right (Declines.map ?_ _) hneg
      exact declines_positive (stops_cons.2 (by decide))

theorem declines_literal {rest : List Char} (h : Stops isPositive rest)
    (hneg : ∀ d ∈ rest.head?, d ≠ '-') : Declines literal rest := by
  apply Declines.orElse
  · exact (declines_positive h).map _
  · exact ((declines_ch hneg).seqRight _).map _

/-! ## Lines -/

def idWord (k : PosNum) : List Char := (Action.reprId k).toList ++ [' ']

def literalWord (l : Literal PosNum) : List Char := l.dimacs.toList ++ [' ']

def hintWord (h : PosNum × List PosNum) : List Char := '-' :: (idWord h.1 ++ h.2.flatMap idWord)

/-- Neither a space nor a number lies ahead. -/
def WordEnd (rest : List Char) : Prop := Stops isSpace rest ∧ Stops isPositive rest

theorem wordEnd_zero (rest : List Char) : WordEnd ('0' :: rest) :=
  ⟨stops_cons.2 (by decide), stops_cons.2 (by decide)⟩

theorem wordEnd_hint (h : PosNum × List PosNum) (rest : List Char) :
    WordEnd (hintWord h ++ rest) := ⟨stops_cons.2 (by decide), stops_cons.2 (by decide)⟩

theorem stops_idWord (k : PosNum) (rest : List Char) : Stops isSpace (idWord k ++ rest) := by
  unfold idWord
  rw [List.append_assoc]
  exact stops_repr (by decide) k _

theorem stops_literalWord (l : Literal PosNum) (rest : List Char) :
    Stops isSpace (literalWord l ++ rest) := by
  obtain ⟨a, b⟩ := l
  cases b with
  | false => exact stops_idWord a rest
  | true => simp [literalWord, Literal.dimacs, isSpace]

theorem reads_id (k : PosNum) {rest : List Char} (h : Stops isSpace rest) :
    Reads (positive <* spaces) (idWord k) k rest := by
  apply reads_seqLeft_space (by decide) h
  exact reads_positive k (stops_cons.2 (by decide))

theorem readsAll_ids (ks : List PosNum) {rest : List Char} (h : WordEnd rest) :
    ReadsAll (positive <* spaces) (ks.flatMap idWord) ks rest := by
  apply ReadsAll.flatMap (Stops isSpace)
  · exact fun k _ => by simp [idWord]
  · exact fun k _ t ht => reads_id k ht
  · exact fun k _ t => stops_idWord k t
  · exact h.1
  · exact (declines_positive h.2).seqLeft _

theorem readsAll_literals (ls : List (Literal PosNum)) (rest : List Char) :
    ReadsAll (literal <* spaces) (ls.flatMap literalWord) ls ('0' :: rest) := by
  apply ReadsAll.flatMap (Stops isSpace)
  · exact fun l _ => by simp [literalWord]
  · intro l _ t ht
    apply reads_seqLeft_space (by decide) ht
    exact reads_literal l (stops_cons.2 (by decide))
  · exact fun l _ t => stops_literalWord l t
  · exact (wordEnd_zero rest).1
  · exact (declines_literal (wordEnd_zero rest).2 (by simp)).seqLeft _

theorem reads_hint (h : PosNum × List PosNum) {rest : List Char} (hrest : WordEnd rest) :
    Reads Lrat.dratHint (hintWord h) h rest := by
  obtain ⟨k, ks⟩ := h
  have hnext : Stops isSpace (ks.flatMap idWord ++ rest) := by
    cases ks with
    | nil => exact hrest.1
    | cons k' ks =>
        rw [List.flatMap_cons, List.append_assoc]
        exact stops_idWord k' _
  have hids := ((reads_id k hnext).map Prod.mk).seq (readsAll_ids ks hrest).many
  exact Reads.bind (s := ['-']) (reads_sat (by decide) _) hids

theorem readsAll_hints (hs : List (PosNum × List PosNum)) (rest : List Char) :
    ReadsAll Lrat.dratHint (hs.flatMap hintWord) hs ('0' :: rest) := by
  apply ReadsAll.flatMap WordEnd
  · exact fun h _ => by simp [hintWord]
  · exact fun h _ t ht => reads_hint h ht
  · exact fun h _ t => wordEnd_hint h t
  · exact wordEnd_zero rest
  · exact (declines_sat (stops_cons.2 (by decide))).bind _

/-- The literals of an added clause, up to the ids. -/
theorem reads_clauseWords (ls : List (Literal PosNum)) {rest : List Char}
    (h : Stops isSpace rest) :
    Reads (many (literal <* spaces) <* ch '0' <* spaces) (ls.flatMap literalWord ++ ['0', ' ']) ls
      rest := by
  have hclause := (readsAll_literals ls _).many.seqLeft (reads_ch '0' (' ' :: rest))
  have hread := reads_seqLeft_space (c := ' ') (by decide) h hclause
  rwa [List.append_assoc] at hread

/-! ## Actions -/

theorem stops_ids (ks : List PosNum) {rest : List Char} (h : Stops isSpace rest) :
    Stops isSpace (ks.flatMap idWord ++ rest) := by
  cases ks with
  | nil => exact h
  | cons k ks =>
      rw [List.flatMap_cons, List.append_assoc]
      exact stops_idWord k _

theorem reads_rup (k : PosNum) (ls : List (Literal PosNum)) (hints : List PosNum)
    (rest : List Char) :
    Reads (Lrat.actionAdd k)
      ((ls.flatMap literalWord ++ ['0', ' ']) ++ (hints.flatMap idWord ++ ['0']))
      (.rup k (Clause.ofList ls) hints) rest := by
  have hclause := reads_clauseWords ls (stops_ids hints (wordEnd_zero rest).1)
  have hids := (readsAll_ids hints (wordEnd_zero rest)).many
  have hend : Reads (many (positive <* spaces) <* ch '0') ['0'] [] rest :=
    (readsAll_ids [] (wordEnd_zero rest)).many.seqLeft (reads_ch '0' rest)
  have hresult := hend.bind_pure fun hints' =>
    (Action.rup k (Clause.ofList ls) (hints ++ hints') : DefaultAction)
  rw [List.append_nil] at hresult
  unfold Lrat.actionAdd
  refine Reads.bind (by simpa using hclause) (hids.bind (Reads.orElse_right ?_ hresult))
  -- without literals the branch of a resolution fails, with literals it finds no hint
  cases ls with
  | nil => exact declines_failure _
  | cons l ls =>
      have hhint : Declines Lrat.dratHint ('0' :: rest) :=
        (declines_sat (stops_cons.2 (by decide))).bind _
      exact (hhint.many1.seqLeft _).bind _

theorem reads_rat (k : PosNum) (l : Literal PosNum) (ls : List (Literal PosNum))
    (ks : List PosNum) (h : PosNum × List PosNum) (hs : List (PosNum × List PosNum))
    (rest : List Char) :
    Reads (Lrat.actionAdd k)
      (((l :: ls).flatMap literalWord ++ ['0', ' ']) ++
        (ks.flatMap idWord ++ ((h :: hs).flatMap hintWord ++ ['0'])))
      (.rat k l (Clause.ofList (l :: ls)) ks (h :: hs)) rest := by
  have hahead : WordEnd ((h :: hs).flatMap hintWord ++ '0' :: rest) := by
    rw [List.flatMap_cons, List.append_assoc]
    exact wordEnd_hint h _
  have hnext : WordEnd (hs.flatMap hintWord ++ '0' :: rest) := by
    cases hs with
    | nil => exact wordEnd_zero rest
    | cons h' hs =>
        rw [List.flatMap_cons, List.append_assoc]
        exact wordEnd_hint h' _
  have hclause := reads_clauseWords (l :: ls) (stops_ids ks hahead.1)
  have hids := (readsAll_ids ks hahead).many
  have hhints := ReadsAll.many1 (reads_hint h hnext) (readsAll_hints hs rest)
  rw [← List.flatMap_cons] at hhints
  have hresult := (hhints.seqLeft (reads_ch '0' rest)).bind_pure fun hints =>
    (Action.rat k l (Clause.ofList (l :: ls)) ks hints : DefaultAction)
  unfold Lrat.actionAdd
  refine Reads.bind (a := l :: ls) ?_ (Reads.bind (a := ks) ?_ (Reads.orElse_left hresult _))
  · simpa using hclause
  · simpa using hids

theorem reads_del (k : PosNum) (ks : List PosNum) (rest : List Char) :
    Reads (Lrat.actionDel k) (['d', ' '] ++ (ks.flatMap idWord ++ ['0']))
      (.del k (ks.foldl (fun f k => f.kinsert k .nil) .nil)) rest := by
  have hids := (readsAll_ids ks (wordEnd_zero rest)).many.seqLeft (reads_ch '0' rest)
  have hspaces : Reads spaces [' '] () (ks.flatMap idWord ++ '0' :: rest) :=
    reads_space (by decide) (stops_ids _ (wordEnd_zero rest).1)
  have hresult := Reads.bind_pure (Reads.seqRight (by simpa using hspaces) hids) fun hints =>
    (Action.del k (hints.foldl (fun f k => f.kinsert k .nil) .nil) : DefaultAction)
  exact Reads.bind (s := ['d']) (reads_sat (by decide) _) hresult

theorem declines_actionAdd (k : PosNum) {rest : List Char} :
    Declines (Lrat.actionAdd k) ('d' :: rest) := by
  have hdecl : Declines (literal <* spaces) ('d' :: rest) :=
    (declines_literal (stops_cons.2 (by decide)) (by simp)).seqLeft _
  have hmany := (ReadsAll.nil hdecl).many
  unfold Lrat.actionAdd
  apply Declines.bind
  apply Declines.seqLeft
  exact hmany.bind_declines ((declines_ch (by simp)).bind _)

/-! ## Printed actions -/

theorem toList_intercalate_space (words : List String) (last : String) :
    (" ".intercalate (words ++ [last])).toList =
      words.flatMap (fun w => w.toList ++ [' ']) ++ last.toList := by
  induction words with
  | nil => simp
  | cons w words ih =>
      rw [List.cons_append, String.intercalate_cons_of_ne_nil (by simp), List.flatMap_cons]
      simp [ih]

theorem toList_clauseDimacs (c : Trie Bool) :
    (Clause.dimacs c).toList = c.toList.flatMap literalWord ++ ['0'] := by
  unfold Clause.dimacs literalWord
  rw [String.toList_append, String.toList_join, List.flatMap_map]
  simp [UnorderedMap.toList]

theorem flatMap_reprId (ks : List PosNum) :
    (ks.map Action.reprId).flatMap (fun w => w.toList ++ [' ']) = ks.flatMap idWord := by
  rw [List.flatMap_map]
  rfl

theorem flatMap_hints (hs : List (PosNum × List PosNum)) :
    (hs.flatMap fun (k, ks) => ("-" ++ Action.reprId k) :: ks.map Action.reprId).flatMap
      (fun w => w.toList ++ [' ']) = hs.flatMap hintWord := by
  rw [List.flatMap_assoc]
  apply List.flatMap_congr
  rintro ⟨k, ks⟩ -
  rw [List.flatMap_cons, flatMap_reprId]
  simp [hintWord, idWord]

theorem toList_lrat_rup (k : PosNum) (c : Trie Bool) (hints : List PosNum) :
    (Action.lrat (.rup k c hints : DefaultAction)).toList = idWord k ++
      ((c.toList.flatMap literalWord ++ ['0', ' ']) ++ (hints.flatMap idWord ++ ['0'])) := by
  unfold Action.lrat Action.lratAux
  rw [toList_intercalate_space, List.flatMap_append, flatMap_reprId]
  simp [toList_clauseDimacs, idWord]

theorem toList_lrat_rat (k : PosNum) (l : Literal PosNum) (c : Trie Bool) (ks : List PosNum)
    (hints : List (PosNum × List PosNum)) :
    (Action.lrat (.rat k l c ks hints : DefaultAction)).toList = idWord k ++
      (((l :: (c.kerase l.1).toList).flatMap literalWord ++ ['0', ' ']) ++
        (ks.flatMap idWord ++ (hints.flatMap hintWord ++ ['0']))) := by
  unfold Action.lrat Action.lratAux
  rw [toList_intercalate_space, List.flatMap_append, List.flatMap_append, flatMap_reprId,
    flatMap_hints]
  have hclause := toList_clauseDimacs (c.kerase l.1)
  simp [UnorderedMap.kerase, hclause, idWord, literalWord]

theorem toList_lrat_del (k : PosNum) (f : Trie (Trie Bool)) :
    (Action.lrat (.del k f : DefaultAction)).toList = idWord k ++
      (['d', ' '] ++ (f.toList.keys.flatMap idWord ++ ['0'])) := by
  unfold Action.lrat Action.lratAux
  rw [toList_intercalate_space, List.flatMap_append, flatMap_reprId]
  simp [UnorderedMap.toList, idWord]

theorem stops_literals (ls : List (Literal PosNum)) (rest : List Char) :
    Stops isSpace (ls.flatMap literalWord ++ '0' :: rest) := by
  cases ls with
  | nil => exact (wordEnd_zero rest).1
  | cons l ls =>
      rw [List.flatMap_cons, List.append_assoc]
      exact stops_literalWord l _

theorem reads_actionAdd {k : PosNum} {s rest : List Char} {a : DefaultAction}
    (hstop : Stops isSpace (s ++ rest)) (h : Reads (Lrat.actionAdd k) s a rest) :
    Reads Lrat.action (idWord k ++ s) a rest := by
  unfold Lrat.action
  exact (reads_id k hstop).bind (h.orElse_left _)

theorem reads_actionDel {k : PosNum} {s rest : List Char} {a : DefaultAction}
    (h : Reads (Lrat.actionDel k) ('d' :: s) a rest) :
    Reads Lrat.action (idWord k ++ 'd' :: s) a rest := by
  unfold Lrat.action
  have hstop : Stops isSpace ('d' :: s ++ rest) := stops_cons.2 (by decide)
  exact (reads_id k hstop).bind (Reads.orElse_right (declines_actionAdd k) h)

/-- A printed action is read back, whatever follows it. -/
theorem reads_action (a : DefaultAction) (rest : List Char) :
    Reads Lrat.action a.lrat.toList a.reread rest := by
  cases a with
  | rup k c hints =>
      rw [toList_lrat_rup]
      apply reads_actionAdd _ (reads_rup k c.toList hints rest)
      simpa using stops_literals c.toList _
  | rat k l c ks hints =>
      rw [toList_lrat_rat]
      cases hints with
      | nil =>
          apply reads_actionAdd _ (reads_rup k (l :: (c.kerase l.1).toList) ks rest)
          simpa using stops_literals (l :: (c.kerase l.1).toList) _
      | cons h hs =>
          apply reads_actionAdd _ (reads_rat k l (c.kerase l.1).toList ks h hs rest)
          simpa using stops_literals (l :: (c.kerase l.1).toList) _
  | del k f =>
      rw [toList_lrat_del]
      exact reads_actionDel (reads_del k f.toList.keys rest)

theorem stops_lrat {a : DefaultAction} (rest : List Char) :
    Stops isSpace (a.lrat.toList ++ rest) := by
  cases a with
  | rup k c hints =>
      rw [toList_lrat_rup, List.append_assoc]
      exact stops_idWord k _
  | rat k l c ks hints =>
      rw [toList_lrat_rat, List.append_assoc]
      exact stops_idWord k _
  | del k f =>
      rw [toList_lrat_del, List.append_assoc]
      exact stops_idWord k _

theorem declines_action {rest : List Char} (h : Stops isPositive rest) :
    Declines Lrat.action rest := ((declines_positive h).seqLeft _).bind _

/-- The lines of a proof, the last of them without a line break. -/
theorem readsAll_lines (as : List DefaultAction) :
    ReadsAll (Lrat.action <* spaces) ("\n".intercalate (as.map Action.lrat)).toList
      (as.map Action.reread) [] := by
  induction as with
  | nil =>
      rw [List.map_nil, String.intercalate_nil]
      exact .nil ((declines_action (stops_nil _)).seqLeft _)
  | cons a as ih =>
      have hfirst := reads_action a
      have hne : a.lrat.toList ≠ [] := by cases a <;> simp [Action.lrat, Action.lratAux]
      cases as with
      | nil =>
          have hline := (hfirst _).seqLeft (t := []) (reads_spaces (by simp) (stops_nil _))
          rw [List.append_nil] at hline
          have hall := ReadsAll.cons hne hline (.nil ((declines_action (stops_nil _)).seqLeft _))
          rw [List.append_nil] at hall
          simpa using hall
      | cons b as =>
          have hnext : Stops isSpace
              (("\n".intercalate ((b :: as).map Action.lrat)).toList ++ []) := by
            cases as with
            | nil => simpa using stops_lrat (a := b) []
            | cons c as => simpa using stops_lrat (a := b) _
          have hline := reads_seqLeft_space (c := '\n') (by decide) hnext (hfirst _)
          have hall := ReadsAll.cons (by simp) hline ih
          simpa using hall

/-- Whatever the actions, their lines are parsed. -/
theorem run_lrat_lines (as : List DefaultAction) :
    run lrat ("\n".intercalate (as.map Action.lrat)).toList = .ok (as.map Action.reread) :=
  (readsAll_lines as).many.run

theorem map_reread_eq_iff {as : List DefaultAction} :
    as.map Action.reread = as ↔ ∀ a ∈ as, a.Printable := by
  calc as.map Action.reread = as
      ↔ as.map Action.reread = as.map id := by rw [List.map_id]
    _ ↔ ∀ a ∈ as, a.reread = a := List.map_inj_left
    _ ↔ ∀ a ∈ as, a.Printable := forall₂_congr fun _ _ => Action.reread_eq_iff

/-- Parsing the printed lines of a proof gives the proof back. -/
theorem run_lrat_printed {as : List DefaultAction} (h : ∀ a ∈ as, a.Printable) :
    run lrat ("\n".intercalate (as.map Action.lrat)).toList = .ok as :=
  (run_lrat_lines as).trans (congrArg Except.ok (map_reread_eq_iff.2 h))

/-- One line of each kind: `9 1 -2 0 3 0`, `4 -2 1 0 7 -3 1 0` and `5 d 1 0`. -/
theorem run_lrat_printed_three :
    let c : Trie Bool := Clause.ofList [⟨1, false⟩, ⟨2, true⟩]
    let as : List DefaultAction :=
      [.rup 9 c [3], .rat 4 ⟨2, true⟩ c [7] [(3, [1])], .del 5 (.node (some .nil) .nil .nil)]
    (∀ a ∈ as, a.Printable) ∧
      run lrat ("\n".intercalate (as.map Action.lrat)).toList = .ok as :=
  ⟨by decide, run_lrat_printed (by decide)⟩

/-- Parsing the printed lines of a proof gives the proof back exactly when its clauses
and deletion sets are canonical, and each pivot is in its clause and has hints. -/
theorem run_lrat_eq_iff (as : List DefaultAction) :
    run lrat ("\n".intercalate (as.map Action.lrat)).toList = .ok as ↔
      ∀ a ∈ as, a.Printable := by
  rw [run_lrat_lines, Except.ok.injEq, map_reread_eq_iff]

end Parser

end Exoverifier.Sat

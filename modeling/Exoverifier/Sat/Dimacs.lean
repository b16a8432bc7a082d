import Exoverifier.Sat.RoundTrip

/-! # DIMACS texts

A text in the DIMACS format holds comments, a problem line and one line for each
list of literals. Its parser returns the formula of the lists, if there are as
many of them as the problem line says.
-/

namespace Exoverifier.Sat.Parser

open Library Library.Parser

/-! ## Texts -/

def commentText (s : String) : List Char := 'c' :: s.toList ++ ['\n']

def problemText (nbvar n : ℕ) : List Char :=
  "p cnf ".toList ++ (nbvar.repr.toList ++ ' ' :: (n.repr.toList ++ ['\n']))

def clauseText (ls : List (Literal PosNum)) : List Char := ls.flatMap literalWord ++ ['0', '\n']

def dimacsText (comments : List String) (nbvar n : ℕ) (lss : List (List (Literal PosNum))) :
    List Char :=
  comments.flatMap commentText ++ (problemText nbvar n ++ lss.flatMap clauseText)

/-! ## Lines -/

theorem reads_comment {s : String} (h : '\n' ∉ s.toList) {rest : List Char}
    (hrest : Stops isSpace rest) :
    Reads (Dimacs.comment <* spaces) (commentText s) () rest := by
  have hall : ReadsAll (sat fun c => c ≠ '\n') (s.toList.flatMap fun c => [c]) s.toList
      ('\n' :: rest) := by
    apply ReadsAll.flatMap fun _ => True
    · exact fun _ _ => by simp
    · exact fun c hc t _ => reads_sat (by simpa using fun heq : c = '\n' => h (heq ▸ hc)) t
    · exact fun _ _ _ => trivial
    · trivial
    · exact declines_sat (stops_cons.2 (by decide))
  rw [List.flatMap_singleton'] at hall
  apply reads_seqLeft_space (s := 'c' :: s.toList) (by decide) hrest
  exact Reads.bind (s := ['c']) (reads_sat (by decide) _) hall.many'

theorem stops_repr_nat {q : Char → Bool} (hq : ∀ d < 10, q d.digitChar = false) (n : ℕ)
    (rest : List Char) : Stops q (n.repr.toList ++ rest) := by
  obtain ⟨d, ds, htext, hdigits, -, -⟩ := exists_digits n
  rw [Nat.toList_repr, htext, List.map_cons, List.cons_append, stops_cons]
  exact hq d (hdigits d (by simp))

theorem stops_nat (n : ℕ) (rest : List Char) : Stops isSpace (n.repr.toList ++ rest) :=
  stops_repr_nat (by decide) n rest

theorem reads_problem (nbvar n : ℕ) {rest : List Char} (hrest : Stops isSpace rest) :
    Reads (Dimacs.problem <* spaces) (problemText nbvar n) n rest := by
  have hspace : ∀ {t : List Char}, Stops isSpace t → Reads spaces [' '] () t :=
    fun ht => reads_space (by decide) ht
  have hdecimal : ∀ {c : Char} {t : List Char}, isDecimal c = false → Stops isDecimal (c :: t) :=
    fun hc => stops_cons.2 hc
  have hcnf := (hspace (t := _ ++ _) (stops_cons.2 (by decide))).seqRight
    (reads_str "cnf" (' ' :: (nbvar.repr.toList ++ ' ' :: (n.repr.toList ++ '\n' :: rest))))
  have hbefore := hcnf.seqRight (hspace (stops_nat nbvar _))
  have hnbvar := hbefore.seqRight (reads_nat nbvar (hdecimal (by decide)))
  have hbetween := hnbvar.seqRight (hspace (stops_nat n _))
  have hn := hbetween.seqRight (reads_nat n (hdecimal (by decide)))
  have hline := Reads.bind (s := ['p'])
    (f := fun _ => spaces *> str "cnf" *> spaces *> nat *> spaces *> nat)
    (reads_sat (q := fun c => c = 'p') (by decide) _) hn
  have hread : Reads (Dimacs.problem <* spaces) _ n rest :=
    reads_seqLeft_space (c := '\n') (by decide) hrest hline
  simpa [problemText] using hread

theorem stops_clauseText (ls : List (Literal PosNum)) (rest : List Char) :
    Stops isSpace (clauseText ls ++ rest) := by
  unfold clauseText
  rw [List.append_assoc]
  exact stops_literals ls _

theorem reads_clause (ls : List (Literal PosNum)) {rest : List Char}
    (hrest : Stops isSpace rest) :
    Reads (Dimacs.clause <* spaces) (clauseText ls) (Clause.ofList ls) rest := by
  have hliterals := (readsAll_literals ls _).many.seqLeft (reads_ch '0' ('\n' :: rest))
  have hspaces : Reads spaces [] () ((ls.flatMap literalWord ++ ['0']) ++ '\n' :: rest) := by
    apply reads_spaces (by simp)
    simpa using stops_literals ls ('\n' :: rest)
  have hclause := (hspaces.seqRight hliterals).map fun ls => (Clause.ofList ls : Trie Bool)
  have hread : Reads (Dimacs.clause <* spaces) _ (Clause.ofList ls) rest :=
    reads_seqLeft_space (c := '\n') (by decide) hrest hclause
  simpa [clauseText] using hread

theorem declines_clause : Declines (Dimacs.clause <* spaces) [] := by
  have hspaces : Reads spaces [] () [] := reads_spaces (by simp) (stops_nil _)
  have hliterals : Reads (many (literal <* spaces)) [] [] [] :=
    (ReadsAll.nil ((declines_literal (stops_nil _) (by simp)).seqLeft _)).many
  have hzero : Declines (ch '0') [] := declines_ch (by simp)
  apply Declines.seqLeft
  apply Declines.map
  exact hspaces.bind_declines (hliterals.bind_declines (hzero.bind _))

theorem readsAll_clauses (lss : List (List (Literal PosNum))) :
    ReadsAll (Dimacs.clause <* spaces) (lss.flatMap clauseText)
      (lss.map fun ls => (Clause.ofList ls : Trie Bool)) [] := by
  induction lss with
  | nil => exact .nil declines_clause
  | cons ls lss ih =>
      have hnext : Stops isSpace (lss.flatMap clauseText ++ []) := by
        cases lss with
        | nil => exact stops_nil _
        | cons ls' lss =>
            rw [List.flatMap_cons, List.append_assoc]
            exact stops_clauseText ls' _
      rw [List.flatMap_cons, List.map_cons]
      exact .cons (by simp [clauseText]) (reads_clause ls hnext) ih

theorem readsAll_comments {comments : List String} (h : ∀ s ∈ comments, '\n' ∉ s.toList)
    {c : Char} {rest : List Char} (hc : c ≠ 'c') (hspace : isSpace c = false) :
    ReadsAll (Dimacs.comment <* spaces) (comments.flatMap commentText)
      (comments.map fun _ => ()) (c :: rest) := by
  induction comments with
  | nil =>
      have hdecl : Declines (sat fun d => d = 'c') (c :: rest) :=
        declines_sat (stops_cons.2 (by simpa using hc))
      exact .nil ((hdecl.bind _).seqLeft _)
  | cons s comments ih =>
      have hnext : Stops isSpace (comments.flatMap commentText ++ c :: rest) := by
        cases comments with
        | nil => exact stops_cons.2 hspace
        | cons s' comments => exact stops_cons.2 (by decide)
      rw [List.flatMap_cons, List.map_cons]
      exact .cons (by simp [commentText]) (reads_comment (h s (by simp)) hnext)
        (ih fun s' hs' => h s' (List.mem_cons_of_mem s hs'))

/-! ## Formulas -/

def countMessage (n found : ℕ) : String :=
  n.repr ++ " clause" ++ (bif n = 1 then "" else "s") ++ ", found " ++ found.repr

theorem reads_lists {comments : List String} (h : ∀ s ∈ comments, '\n' ∉ s.toList) (nbvar n : ℕ)
    (lss : List (List (Literal PosNum))) :
    Reads (many (Dimacs.comment <* spaces) *> (Dimacs.problem <* spaces))
      (comments.flatMap commentText ++ problemText nbvar n) n (lss.flatMap clauseText ++ []) := by
  have hnext : Stops isSpace (lss.flatMap clauseText ++ []) := by
    cases lss with
    | nil => exact stops_nil _
    | cons ls lss =>
        rw [List.flatMap_cons, List.append_assoc]
        exact stops_clauseText ls _
  exact (readsAll_comments h (by decide) (by decide)).many.seqRight (reads_problem nbvar n hnext)

/-- What the parser does after the clauses. -/
def checkCount (n : ℕ) (cs : List (Trie Bool)) : Parser (Trie (Trie Bool)) := do
  decorateError (countMessage n cs.length) (guard (cs.length = n))
  return Formula.ofList cs

theorem dimacsText_eq (comments : List String) (nbvar n : ℕ) (lss : List (List (Literal PosNum))) :
    dimacsText comments nbvar n lss =
      (comments.flatMap commentText ++ problemText nbvar n) ++ lss.flatMap clauseText := by
  simp [dimacsText]

theorem run_dimacs_of_count {comments : List String} (h : ∀ s ∈ comments, '\n' ∉ s.toList)
    (nbvar : ℕ) (lss : List (List (Literal PosNum))) :
    run dimacs (dimacsText comments nbvar lss.length lss) = .ok (ofLists lss) := by
  have hproblem := reads_lists h nbvar lss.length lss
  have hclauses := (readsAll_clauses lss).many
  have hcount : (lss.map fun ls => (Clause.ofList ls : Trie Bool)).length = lss.length := by simp
  have hcheck : Reads (checkCount lss.length (lss.map Clause.ofList)) [] (ofLists lss) [] :=
    ((reads_guard hcount []).decorateErrors _).bind_pure _
  rw [dimacsText_eq]
  exact (hproblem.bind (hclauses.bind_nil hcheck)).run

theorem run_dimacs_of_miscount {comments : List String} (h : ∀ s ∈ comments, '\n' ∉ s.toList)
    (nbvar : ℕ) {n : ℕ} {lss : List (List (Literal PosNum))} (hn : lss.length ≠ n) :
    run dimacs (dimacsText comments nbvar n lss) =
      .error ((dimacsText comments nbvar n lss).length, [countMessage n lss.length]) := by
  have hproblem := reads_lists h nbvar n lss
  have hclauses := (readsAll_clauses lss).many
  have hlength : (lss.map fun ls => (Clause.ofList ls : Trie Bool)).length = lss.length := by simp
  have hcheck : Fails (checkCount n (lss.map Clause.ofList)) []
      [countMessage n (lss.map fun ls => (Clause.ofList ls : Trie Bool)).length] [] :=
    (fails_guard (by rwa [hlength]) _ []).bind _
  rw [hlength] at hcheck
  rw [dimacsText_eq]
  exact (hproblem.bind_fails (hclauses.bind_nil_fails hcheck)).run

/-- The parser of formulas reads every text to its end, and checks the number of
clauses there. -/
theorem run_dimacs {comments : List String} (h : ∀ s ∈ comments, '\n' ∉ s.toList) (nbvar n : ℕ)
    (lss : List (List (Literal PosNum))) :
    run dimacs (dimacsText comments nbvar n lss) =
      if lss.length = n then .ok (ofLists lss)
      else .error ((dimacsText comments nbvar n lss).length, [countMessage n lss.length]) := by
  by_cases hn : lss.length = n
  · subst hn
    rw [if_pos rfl]
    exact run_dimacs_of_count h nbvar lss
  · rw [if_neg hn]
    exact run_dimacs_of_miscount h nbvar hn

/-- A text with one comment and a wrong number of clauses. -/
theorem run_dimacs_miscount :
    run dimacs (dimacsText ["c"] 1 2 [[⟨1, false⟩]]) = .error (17, ["2 clauses, found 1"]) :=
  (run_dimacs (by simp) 1 2 [[⟨1, false⟩]]).trans (by decide)

end Exoverifier.Sat.Parser

import Mathlib.Data.List.Basic
import Mathlib.Tactic.Ring

/-! # Parser combinators over positions

A parser runs on an input from a position on. Alternatives do not backtrack: the
second parser runs only if the first one failed where it started. Two relations
describe a parser by the text that lies ahead: it reads a word and leaves the
rest, or it declines, that is, fails without consuming anything.
-/

namespace Exoverifier.Library

inductive ParseResult (α : Type) where
  | done (pos : ℕ) (result : α)
  | fail (pos : ℕ) (expected : List String)
  deriving DecidableEq, Repr

def Parser (α : Type) : Type := List Char → ℕ → ParseResult α

namespace Parser

variable {α β : Type}

protected def pure (a : α) : Parser α := fun _ pos => .done pos a

protected def bind (p : Parser α) (f : α → Parser β) : Parser β := fun input pos =>
  match p input pos with
  | .done pos a => f a input pos
  | .fail pos expected => .fail pos expected

instance : Monad Parser where
  pure := Parser.pure
  bind := Parser.bind

protected def failure : Parser α := fun _ pos => .fail pos []

protected def orElse (p q : Parser α) : Parser α := fun input pos =>
  match p input pos with
  | .fail pos₁ expected₁ =>
      if pos₁ ≠ pos then .fail pos₁ expected₁
      else
        match q input pos with
        | .fail pos₂ expected₂ =>
            if pos₁ < pos₂ then .fail pos₁ expected₁
            else if pos₂ < pos₁ then .fail pos₂ expected₂
            else .fail pos₁ (expected₁ ++ expected₂)
        | ok => ok
  | ok => ok

instance : Alternative Parser where
  failure := Parser.failure
  orElse p q := Parser.orElse p (q ())

/-- Override the expected token names, and do not consume input on failure. -/
def decorateErrors (msgs : List String) (p : Parser α) : Parser α := fun input pos =>
  match p input pos with
  | .fail _ _ => .fail pos msgs
  | ok => ok

def decorateError (msg : String) (p : Parser α) : Parser α := decorateErrors [msg] p

def sat (q : Char → Bool) : Parser Char := fun input pos =>
  match input[pos]? with
  | some c => if q c then .done (pos + 1) c else .fail pos []
  | none => .fail pos []

def eps : Parser Unit := pure ()

def ch (c : Char) : Parser Unit := decorateError (String.singleton c) (sat (· == c) *> eps)

def oneOf (cs : List Char) : Parser Char :=
  decorateErrors (cs.map String.singleton) (sat cs.contains)

def str (s : String) : Parser Unit := decorateError s (s.toList.forM ch)

def remaining : Parser ℕ := fun input pos => .done pos (input.length - pos)

def eof : Parser Unit := decorateError "<end-of-file>" do
  let rem ← remaining
  guard (rem = 0)

def foldrCore (f : α → β → β) (p : Parser α) (b : β) : ℕ → Parser β
  | 0 => failure
  | reps + 1 =>
      (do
        let x ← p
        let xs ← foldrCore f p b reps
        return f x xs) <|> pure b

/-- The number of repetitions is bounded by the length of the remaining input. -/
def foldr (f : α → β → β) (p : Parser α) (b : β) : Parser β := fun input pos =>
  foldrCore f p b (input.length - pos + 1) input pos

def many (p : Parser α) : Parser (List α) := foldr List.cons p []

def many' (p : Parser α) : Parser Unit := many p *> eps

def many1 (p : Parser α) : Parser (List α) := List.cons <$> p <*> many p

def digit : Parser ℕ := decorateError "<digit>" do
  let c ← sat fun c => '0' ≤ c && c ≤ '9'
  return c.toNat - '0'.toNat

def nat : Parser ℕ := decorateError "<natural>" do
  let digits ← many1 digit
  return (digits.foldr (fun digit p => (p.1 + digit * p.2, p.2 * 10)) (0, 1)).1

/-- Run a parser on a whole text. A failure keeps its position and what was expected. -/
def run (p : Parser α) (input : List Char) : Except (ℕ × List String) α :=
  match (p <* eof) input 0 with
  | .done _ a => .ok a
  | .fail pos expected => .error (pos, expected)

/-! ## Reading and declining -/

/-- With `s ++ rest` ahead, the parser consumes `s` and returns `a`. -/
def Reads (p : Parser α) (s : List Char) (a : α) (rest : List Char) : Prop :=
  ∀ input pos, input.drop pos = s ++ rest → p input pos = .done (pos + s.length) a

/-- With `rest` ahead, the parser fails where it stands. -/
def Declines (p : Parser α) (rest : List Char) : Prop :=
  ∀ input pos, input.drop pos = rest → ∃ expected, p input pos = .fail pos expected

/-- With `s ++ rest` ahead, the parser consumes `s` and then fails. -/
def Fails (p : Parser α) (s : List Char) (expected : List String) (rest : List Char) : Prop :=
  ∀ input pos, input.drop pos = s ++ rest → p input pos = .fail (pos + s.length) expected

section Rules

variable {p : Parser α} {a : α} {s t rest : List Char}

theorem Reads.pure (a : α) (rest : List Char) : Reads (Pure.pure a) [] a rest := fun _ _ _ => rfl

theorem Reads.bind {f : α → Parser β} {b : β} (h : Reads p s a (t ++ rest))
    (hf : Reads (f a) t b rest) : Reads (p >>= f) (s ++ t) b rest := by
  intro input pos hin
  have hp := h input pos (by rw [hin, List.append_assoc])
  have hrest : input.drop (pos + s.length) = t ++ rest := by
    rw [← List.drop_drop, hin, List.append_assoc, List.drop_left]
  have hrun : (p >>= f) input pos = f a input (pos + s.length) := by
    change Parser.bind p f input pos = _
    rw [Parser.bind, hp]
  rw [hrun, hf input _ hrest, List.length_append, Nat.add_assoc]

theorem Declines.bind (h : Declines p rest) (f : α → Parser β) : Declines (p >>= f) rest := by
  intro input pos hin
  obtain ⟨expected, hp⟩ := h input pos hin
  refine ⟨expected, ?_⟩
  change Parser.bind p f input pos = _
  rw [Parser.bind, hp]

/-- A parser that reads nothing passes the refusal of the next one on. -/
theorem Reads.bind_declines {f : α → Parser β} (h : Reads p [] a rest)
    (hf : Declines (f a) rest) : Declines (p >>= f) rest := by
  intro input pos hin
  obtain ⟨expected, hq⟩ := hf input pos hin
  refine ⟨expected, ?_⟩
  change Parser.bind p f input pos = _
  rw [Parser.bind, h input pos hin]
  exact hq

/-- The next parser only looks at what lies ahead. -/
theorem Reads.bind_nil {f : α → Parser β} {b : β} (h : Reads p s a rest)
    (hf : Reads (f a) [] b rest) : Reads (p >>= f) s b rest := by
  have hbind := Reads.bind (t := []) h hf
  rwa [List.append_nil] at hbind

theorem Reads.bind_pure (h : Reads p s a rest) (f : α → β) :
    Reads (p >>= fun x => Pure.pure (f x)) s (f a) rest := h.bind_nil (Reads.pure (f a) rest)

theorem Reads.map (f : α → β) (h : Reads p s a rest) : Reads (f <$> p) s (f a) rest :=
  h.bind_pure f

theorem Declines.map (h : Declines p rest) (f : α → β) : Declines (f <$> p) rest := h.bind _

theorem Reads.seqRight {q : Parser β} {b : β} (h : Reads p s a (t ++ rest))
    (hq : Reads q t b rest) : Reads (p *> q) (s ++ t) b rest := h.bind hq

theorem Reads.seqLeft {q : Parser β} {b : β} (h : Reads p s a (t ++ rest))
    (hq : Reads q t b rest) : Reads (p <* q) (s ++ t) a rest :=
  h.bind (f := fun x => q >>= fun _ => Pure.pure x) (hq.bind_pure fun _ => a)

theorem Reads.seq {f : Parser (α → β)} {g : α → β} (h : Reads f s g (t ++ rest))
    (hp : Reads p t a rest) : Reads (f <*> p) (s ++ t) (g a) rest := h.bind (hp.map g)

theorem Declines.seqLeft (h : Declines p rest) (q : Parser β) : Declines (p <* q) rest := h.bind _

theorem Declines.seqRight (h : Declines p rest) (q : Parser β) : Declines (p *> q) rest := h.bind _

theorem Reads.orElse_left (h : Reads p s a rest) (q : Parser α) : Reads (p <|> q) s a rest := by
  intro input pos hin
  change Parser.orElse p q input pos = _
  rw [Parser.orElse, h input pos hin]

theorem Reads.orElse_right {q : Parser α} (hp : Declines p (s ++ rest)) (h : Reads q s a rest) :
    Reads (p <|> q) s a rest := by
  intro input pos hin
  obtain ⟨expected, hfail⟩ := hp input pos hin
  change Parser.orElse p q input pos = _
  rw [Parser.orElse, hfail, h input pos hin]
  simp

theorem Declines.orElse {q : Parser α} (hp : Declines p rest) (hq : Declines q rest) :
    Declines (p <|> q) rest := by
  intro input pos hin
  obtain ⟨expected, hfail⟩ := hp input pos hin
  obtain ⟨expected', hfail'⟩ := hq input pos hin
  refine ⟨expected ++ expected', ?_⟩
  change Parser.orElse p q input pos = _
  rw [Parser.orElse, hfail, hfail']
  simp

theorem Fails.bind {expected : List String} (h : Fails p s expected rest) (f : α → Parser β) :
    Fails (p >>= f) s expected rest := by
  intro input pos hin
  change Parser.bind p f input pos = _
  rw [Parser.bind, h input pos hin]

theorem Reads.bind_fails {f : α → Parser β} {expected : List String} (h : Reads p s a (t ++ rest))
    (hf : Fails (f a) t expected rest) : Fails (p >>= f) (s ++ t) expected rest := by
  intro input pos hin
  have hp := h input pos (by rw [hin, List.append_assoc])
  have hrest : input.drop (pos + s.length) = t ++ rest := by
    rw [← List.drop_drop, hin, List.append_assoc, List.drop_left]
  change Parser.bind p f input pos = _
  rw [Parser.bind, hp]
  change f a input (pos + s.length) = _
  rw [hf input _ hrest, List.length_append, Nat.add_assoc]

theorem Reads.bind_nil_fails {f : α → Parser β} {expected : List String} (h : Reads p s a rest)
    (hf : Fails (f a) [] expected rest) : Fails (p >>= f) s expected rest := by
  have hbind := Reads.bind_fails (t := []) h hf
  rwa [List.append_nil] at hbind

theorem reads_guard {q : Prop} [Decidable q] (h : q) (rest : List Char) :
    Reads (guard q) [] () rest := by
  rw [guard, if_pos h]
  exact Reads.pure () rest

theorem fails_guard {q : Prop} [Decidable q] (h : ¬ q) (msg : String) (rest : List Char) :
    Fails (decorateError msg (guard q)) [] [msg] rest := by
  intro input pos _
  rw [guard, if_neg h]
  rfl

theorem declines_failure (rest : List Char) : Declines (failure : Parser α) rest :=
  fun _ _ _ => ⟨[], rfl⟩

theorem Reads.decorateErrors (h : Reads p s a rest) (msgs : List String) :
    Reads (decorateErrors msgs p) s a rest := by
  intro input pos hin
  rw [Parser.decorateErrors, h input pos hin]

theorem Declines.decorateErrors (h : Declines p rest) (msgs : List String) :
    Declines (decorateErrors msgs p) rest := by
  intro input pos hin
  obtain ⟨expected, hfail⟩ := h input pos hin
  exact ⟨msgs, by rw [Parser.decorateErrors, hfail]⟩

end Rules

/-! ## Single characters -/

/-- No text that starts with a character of `q` lies ahead. -/
def Stops (q : Char → Bool) (rest : List Char) : Prop := ∀ c ∈ rest.head?, q c = false

@[simp] theorem stops_nil (q : Char → Bool) : Stops q [] := by simp [Stops]

@[simp] theorem stops_cons {q : Char → Bool} {c : Char} {rest : List Char} :
    Stops q (c :: rest) ↔ q c = false := by simp [Stops]

theorem getElem?_of_drop {input rest : List Char} {pos : ℕ} (h : input.drop pos = rest) :
    input[pos]? = rest.head? := by
  rw [← h, List.head?_drop]

theorem reads_sat {q : Char → Bool} {c : Char} (h : q c = true) (rest : List Char) :
    Reads (sat q) [c] c rest := by
  intro input pos hin
  rw [sat, getElem?_of_drop hin]
  simp [h]

theorem declines_sat {q : Char → Bool} {rest : List Char} (h : Stops q rest) :
    Declines (sat q) rest := by
  intro input pos hin
  refine ⟨[], ?_⟩
  rw [sat, getElem?_of_drop hin]
  cases hhead : rest.head? with
  | none => rfl
  | some c => simp [h c hhead]

theorem reads_ch (c : Char) (rest : List Char) : Reads (ch c) [c] () rest := by
  refine Reads.decorateErrors ?_ _
  exact Reads.seqRight (t := []) (reads_sat (q := (· == c)) (beq_self_eq_true c) _)
    (Reads.pure () rest)

theorem declines_ch {c : Char} {rest : List Char} (h : ∀ d ∈ rest.head?, d ≠ c) :
    Declines (ch c) rest := by
  refine Declines.decorateErrors (Declines.seqRight (declines_sat ?_) _) _
  exact fun d hd => beq_false_of_ne (h d hd)

theorem reads_str (s : String) (rest : List Char) : Reads (str s) s.toList () rest := by
  have hchars : ∀ cs : List Char, Reads (cs.forM ch) cs () rest := by
    intro cs
    induction cs with
    | nil => exact Reads.pure () rest
    | cons c cs ih => exact Reads.bind (s := [c]) (reads_ch c _) ih
  exact (hchars s.toList).decorateErrors _

theorem reads_eof : Reads eof [] () [] := by
  intro input pos hin
  have hlen := congrArg List.length hin
  simp only [List.length_drop, List.append_nil, List.length_nil] at hlen
  simp [eof, decorateError, decorateErrors, remaining, guard, bind, Parser.bind, hlen, Pure.pure,
    Parser.pure]

/-! ## Repetition -/

/-- The parser reads the words of `s` one after the other, each of them not
empty, and declines what follows. -/
inductive ReadsAll (p : Parser α) : List Char → List α → List Char → Prop
  | nil {rest} : Declines p rest → ReadsAll p [] [] rest
  | cons {s t a as rest} : s ≠ [] → Reads p s a (t ++ rest) → ReadsAll p t as rest →
      ReadsAll p (s ++ t) (a :: as) rest

theorem ReadsAll.length_le {p : Parser α} {s : List Char} {as : List α} {rest : List Char}
    (h : ReadsAll p s as rest) : as.length ≤ s.length := by
  induction h with
  | nil => exact Nat.le_refl 0
  | cons hs _ _ ih =>
      have := List.length_pos_of_ne_nil hs
      rw [List.length_append, List.length_cons]
      omega

theorem ReadsAll.foldrCore {p : Parser α} {s : List Char} {as : List α} {rest : List Char}
    (h : ReadsAll p s as rest) (f : α → β → β) (b : β) :
    ∀ reps, as.length < reps → Reads (foldrCore f p b reps) s (as.foldr f b) rest := by
  induction h with
  | nil hdecl =>
      intro reps hreps
      obtain ⟨reps, rfl⟩ := Nat.exists_eq_add_of_lt hreps
      rw [List.length_nil, Nat.zero_add, Parser.foldrCore]
      exact Reads.orElse_right (hdecl.bind _) (Reads.pure b _)
  | @cons s t a as rest _ hread _ ih =>
      intro reps hreps
      cases reps with
      | zero => omega
      | succ reps =>
          have htail := ih reps (by rw [List.length_cons] at hreps; omega)
          rw [Parser.foldrCore]
          exact Reads.orElse_left (hread.bind (htail.bind_pure (f a))) _

theorem ReadsAll.many {p : Parser α} {s : List Char} {as : List α} {rest : List Char}
    (h : ReadsAll p s as rest) : Reads (many p) s as rest := by
  intro input pos hin
  have hlen := congrArg List.length hin
  rw [List.length_drop, List.length_append] at hlen
  have hle := h.length_le
  have hread := h.foldrCore List.cons [] (input.length - pos + 1) (by omega) input pos hin
  rwa [List.foldr_cons_nil] at hread

theorem ReadsAll.many' {p : Parser α} {s : List Char} {as : List α} {rest : List Char}
    (h : ReadsAll p s as rest) : Reads (many' p) s () rest := by
  have hseq := Reads.seqRight (t := []) h.many (Reads.pure () rest)
  rwa [List.append_nil] at hseq

theorem ReadsAll.many1 {p : Parser α} {s t : List Char} {a : α} {as : List α} {rest : List Char}
    (hread : Reads p s a (t ++ rest)) (h : ReadsAll p t as rest) :
    Reads (many1 p) (s ++ t) (a :: as) rest :=
  Reads.seq (hread.map List.cons) h.many

theorem Declines.many1 {p : Parser α} {rest : List Char} (h : Declines p rest) :
    Declines (many1 p) rest := (h.map List.cons).bind _

/-- A parser that reads each word in front of any text of `ahead` reads words in a row. -/
theorem ReadsAll.flatMap {p : Parser α} {word : α → List Char} (ahead : List Char → Prop)
    {as : List α} {rest : List Char} (hword : ∀ a ∈ as, word a ≠ [])
    (hread : ∀ a ∈ as, ∀ t, ahead t → Reads p (word a) a t)
    (hahead : ∀ a ∈ as, ∀ t, ahead (word a ++ t)) (hrest : ahead rest) (hend : Declines p rest) :
    ReadsAll p (as.flatMap word) as rest := by
  induction as with
  | nil => exact .nil hend
  | cons a as ih =>
      have hnext : ahead (as.flatMap word ++ rest) := by
        cases as with
        | nil => exact hrest
        | cons b as =>
            rw [List.flatMap_cons, List.append_assoc]
            exact hahead b (by simp) _
      rw [List.flatMap_cons]
      refine .cons (hword a (by simp)) (hread a (by simp) _ hnext) (ih ?_ ?_ ?_)
      · exact fun b hb => hword b (List.mem_cons_of_mem a hb)
      · exact fun b hb => hread b (List.mem_cons_of_mem a hb)
      · exact fun b hb => hahead b (List.mem_cons_of_mem a hb)

/-! ## Numbers -/

theorem digitChar_spec : ∀ d < 10,
    ('0' ≤ d.digitChar && d.digitChar ≤ '9') = true ∧ d.digitChar.toNat - '0'.toNat = d := by
  decide

theorem reads_digit {d : ℕ} (h : d < 10) (rest : List Char) :
    Reads digit [d.digitChar] d rest := by
  obtain ⟨hrange, hvalue⟩ := digitChar_spec d h
  have hread := (reads_sat (q := fun c => '0' ≤ c && c ≤ '9') hrange rest).bind_pure
    fun c => c.toNat - '0'.toNat
  rw [hvalue] at hread
  exact hread.decorateErrors _

theorem declines_digit {rest : List Char} (h : Stops (fun c => '0' ≤ c && c ≤ '9') rest) :
    Declines digit rest := ((declines_sat h).bind _).decorateErrors _

theorem readsAll_digit {ds : List ℕ} {rest : List Char} (hds : ∀ d ∈ ds, d < 10)
    (hrest : Stops (fun c => '0' ≤ c && c ≤ '9') rest) :
    ReadsAll digit (ds.map Nat.digitChar) ds rest := by
  rw [List.map_eq_flatMap]
  apply ReadsAll.flatMap fun _ => True
  · exact fun d _ => by simp
  · exact fun d hd t _ => reads_digit (hds d hd) t
  · exact fun _ _ _ => trivial
  · trivial
  · exact declines_digit hrest

/-- The decimal digits of a number, the first of them not zero unless the number is. -/
theorem exists_digits (n : ℕ) :
    ∃ d ds, Nat.toDigits 10 n = (d :: ds).map Nat.digitChar ∧ (∀ e ∈ d :: ds, e < 10) ∧
      (0 < n → 0 < d) ∧ ds.foldl (fun sum digit => sum * 10 + digit) d = n := by
  induction n using Nat.strong_induction_on with
  | _ n ih =>
      by_cases hn : n < 10
      · refine ⟨n, [], ?_, by simpa using hn, id, rfl⟩
        rw [Nat.toDigits_of_lt_base hn]
        rfl
      · obtain ⟨d, ds, htext, hdigits, hpos, hvalue⟩ := ih (n / 10) (by omega)
        refine ⟨d, ds ++ [n % 10], ?_, ?_, fun _ => hpos (by omega), ?_⟩
        · rw [Nat.toDigits_of_base_le (by decide) (by omega), htext, ← List.cons_append,
            List.map_append]
          rfl
        · intro e he
          rw [← List.cons_append, List.mem_append, List.mem_singleton] at he
          rcases he with he | rfl
          · exact hdigits e he
          · omega
        · rw [List.foldl_append, hvalue, List.foldl_cons, List.foldl_nil]
          omega

/-- The natural number parser adds digits from the last one on, by their magnitude. -/
theorem foldr_digits (ds : List ℕ) (d : ℕ) :
    ds.foldl (fun sum digit => sum * 10 + digit) d =
      (ds.foldr (fun digit p => (p.1 + digit * p.2, p.2 * 10)) (0, 1)).1 +
        d * (ds.foldr (fun digit p => (p.1 + digit * p.2, p.2 * 10)) (0, 1)).2 := by
  induction ds generalizing d with
  | nil => simp
  | cons e ds ih =>
      rw [List.foldl_cons, ih, List.foldr_cons]
      ring

theorem reads_nat (n : ℕ) {rest : List Char} (h : Stops (fun c => '0' ≤ c && c ≤ '9') rest) :
    Reads nat n.repr.toList n rest := by
  obtain ⟨d, ds, htext, hdigits, -, hvalue⟩ := exists_digits n
  have hmany := ReadsAll.many1 (reads_digit (hdigits d (by simp)) _)
    (readsAll_digit (fun e he => hdigits e (List.mem_cons_of_mem d he)) h)
  rw [Nat.toList_repr, htext]
  have hread := hmany.bind_pure fun digits =>
    (digits.foldr (fun digit p => (p.1 + digit * p.2, p.2 * 10)) (0, 1)).1
  rw [List.foldr_cons, ← foldr_digits, hvalue] at hread
  exact hread.decorateErrors _

/-! ## Running -/

/-- Running a parser on a text that it reads to the end. -/
theorem Reads.run {p : Parser α} {s : List Char} {a : α} (h : Reads p s a []) :
    run p s = .ok a := by
  have hseq := Reads.seqLeft (t := []) h reads_eof
  have hrun := hseq s 0 (by simp)
  rw [Parser.run, hrun]

theorem Fails.run {p : Parser α} {s : List Char} {expected : List String}
    (h : Fails p s expected []) : run p s = .error (s.length, expected) := by
  have hrun := (h.bind fun x => eof >>= fun _ => Pure.pure x) s 0 (by simp)
  rw [Nat.zero_add] at hrun
  change (p <* eof) s 0 = _ at hrun
  rw [Parser.run, hrun]

end Parser

end Exoverifier.Library

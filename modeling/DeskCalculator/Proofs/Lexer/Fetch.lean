import DeskCalculator.Lexer
import DeskCalculator.Proofs.Journal.Growth

/-!
# Tokens — What a fetch leaves in the journal

A fetch notes at most one failed read, reports the token it takes if that is bad, and notes the
token; these are the events it adds to the journal (`grows_next`).  So the tokens in a journal are
those fetched, in order (`tokens_next`), and a fetch reports what the kind of its token says and
nothing else (`problems_next`, `errors_next`).
-/

namespace DeskCalculator

/-- The problems a token of this kind is reported with. -/
def Kind.problems : Kind → List Problem
  | .bad found => [.badToken found]
  | _          => []

/-- The log of a read that failed, or an empty one. -/
def MayFail (log : List Event) : Prop := log = [] ∨ ∃ message line, log = [.readFailed message line]

/-- The report of a token of this kind, as the `count`-th. -/
def Kind.reports (k : Kind) (count : Nat) : List Event := k.problems.map (.reported · count)

theorem Kind.category_problems {k : Kind} : ∀ p ∈ k.problems, p.category = .lexical := by
  cases k <;> simp [Kind.problems, Problem.category]

namespace Lexer

theorem refill_journal (l : Lexer) (j : Journal) :
    (l.refill j).2 = j ∨
      (l.refill j).1.exhausted = true ∧
        ∃ message line, (l.refill j).2 = j.note (.readFailed message line) := by
  unfold refill
  split
  · exact .inl rfl
  · exact .inl rfl
  · exact .inr ⟨rfl, _, _, rfl⟩

section Seek
variable {l : Lexer} (j : Journal)

/-- A line that has run out is followed by the next one. -/
theorem seek_further (h : (l.rest.dropWhile isBlank).isEmpty ∧ l.exhausted = false) :
    l.seek j = (l.skipBlanks.refill j).1.seek (l.skipBlanks.refill j).2 := by
  rw [seek, dif_pos h]

theorem seek_here (h : ¬((l.rest.dropWhile isBlank).isEmpty ∧ l.exhausted = false)) :
    l.seek j = (l.skipBlanks, j) := by
  rw [seek, dif_neg h]

theorem seek_exhausted (h : l.exhausted = true) : l.seek j = (l.skipBlanks, j) :=
  seek_here j fun hc => by rw [h] at hc; cases hc.2

end Seek

/-- A failed read exhausts the lexer, so there is at most one. -/
theorem seek_journal (l : Lexer) (j : Journal) :
    (l.seek j).2 = j ∨ ∃ message line, (l.seek j).2 = j.note (.readFailed message line) := by
  fun_induction seek l j with
  | case1 l j h ih =>
      rcases refill_journal l.skipBlanks j with hj | ⟨hx, message, line, hj⟩
      · rwa [hj] at ih ⊢
      · rw [seek_exhausted _ hx]
        exact .inr ⟨message, line, hj⟩
  | case2 l j h => exact .inl rfl

/-- A fetch takes a token of the line. -/
theorem fetch_eq_take (l : Lexer) (j : Journal) :
    ∃ kind text, l.fetch j = (l.take kind text, check kind j) := by
  unfold fetch
  split
  · exact ⟨.terminator, [], rfl⟩
  · exact ⟨_, _, rfl⟩

theorem fetch_journal (l : Lexer) (j : Journal) :
    (l.fetch j).2 = check (l.fetch j).1.current.kind j := by
  obtain ⟨kind, text, h⟩ := fetch_eq_take l j
  rw [h]
  rfl

theorem next_journal (l : Lexer) (j : Journal) :
    (l.next j).2 =
      (check (l.next j).1.current.kind (l.seek j).2).note (.fetched (l.next j).1.current) := by
  simp only [next]
  rw [← fetch_journal]

theorem grows_check (k : Kind) (j : Journal) : j.Grows (k.reports (j.errors + 1)) (check k j) := by
  cases k with
  | bad found => exact .of_report j _
  | _ => exact .refl j

/-- The events of a fetch: a read that failed, the report of a bad token, and the token. -/
theorem grows_next (l : Lexer) (j : Journal) :
    ∃ failed, MayFail failed ∧
      j.Grows (failed ++ (l.next j).1.current.kind.reports (j.errors + 1) ++
        [.fetched (l.next j).1.current]) (l.next j).2 := by
  rw [next_journal]
  rcases seek_journal l j with h | ⟨message, line, h⟩
  · rw [h]
    exact ⟨[], .inl rfl, (grows_check _ j).note rfl⟩
  · rw [h]
    have hf : j.Grows [.readFailed message line] (j.note (.readFailed message line)) := .of_note j rfl
    exact ⟨_, .inr ⟨message, line, rfl⟩, (hf.trans (grows_check _ _)).note rfl⟩

/-- What these events report and fetch. -/
theorem in_events {failed : List Event} (hf : MayFail failed) (token : Token) (count : Nat) :
    problemsIn (failed ++ token.kind.reports count ++ [.fetched token]) = token.kind.problems ∧
      tokensIn (failed ++ token.kind.reports count ++ [.fetched token]) = [token] := by
  obtain ⟨kind, span⟩ := token
  rcases hf with rfl | ⟨message, line, rfl⟩ <;> cases kind <;> exact ⟨rfl, rfl⟩

variable (l : Lexer) (j : Journal)

theorem gains_next : j.Gains (l.next j).1.current.kind.problems (l.next j).2 := by
  obtain ⟨failed, hf, hg⟩ := grows_next l j
  exact ⟨_, hg, (in_events hf _ _).1⟩

theorem problems_next :
    (l.next j).2.problems = j.problems ++ (l.next j).1.current.kind.problems :=
  (gains_next l j).problems_eq

theorem errors_next :
    (l.next j).2.errors = j.errors + (l.next j).1.current.kind.problems.length :=
  (gains_next l j).errors_eq

theorem tokens_next : (l.next j).2.tokens = j.tokens ++ [(l.next j).1.current] := by
  obtain ⟨failed, hf, hg⟩ := grows_next l j
  rw [hg.tokens, (in_events hf _ _).2]

end Lexer

end DeskCalculator

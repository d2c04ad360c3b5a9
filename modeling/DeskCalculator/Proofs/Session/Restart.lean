import DeskCalculator.Proofs.Lexer.Chunking
import DeskCalculator.Proofs.Session.Lockstep

/-!
# Sessions — A new input

Of its old input a lexer keeps nothing but the current token, and every statement begins with a fetch,
which does not look at that token (`statement_withCurrent`).  So whatever was done to a calculator, and
wherever in its input it stands, on a new input it begins anew.

**A new input is a new start** (`statements_setInput`).  The statements that follow are those of a new
calculator over that input with the same variables and the same journal, and so is everything they
leave.
-/

namespace DeskCalculator.Calculator

/-- The outcomes of `n` statements, one after the other, and the calculator behind them. -/
def statements (c : Calculator) : Nat → List Statement × Calculator
  | 0     => ([], c)
  | n + 1 => (c.statement.1 :: (c.statement.2.statements n).1, (c.statement.2.statements n).2)

/-- The calculator with another current token. -/
def withCurrent (c : Calculator) (token : Token) : Calculator :=
  { c with lexer := { c.lexer with current := token } }

theorem setInput_eq_withCurrent (c : Calculator) (input : Input) :
    c.setInput input = (ofInput input c.table c.journal).withCurrent c.current := rfl

theorem advance_withCurrent (c : Calculator) (token : Token) :
    (c.withCurrent token).advance = c.advance :=
  congrArg (fun s => (⟨s.1, c.table, s.2⟩ : Calculator))
    (Lexer.next_withCurrent c.lexer token c.journal)

/-- A statement begins behind the current token. -/
theorem statement_withCurrent (c : Calculator) (token : Token) :
    (c.withCurrent token).statement = c.statement := by
  simp only [statement, advance_withCurrent]

theorem statements_withCurrent (c : Calculator) (token : Token) (n : Nat) :
    (c.withCurrent token).statements (n + 1) = c.statements (n + 1) := by
  simp only [statements, statement_withCurrent]

theorem calculate_withCurrent (c : Calculator) (token : Token) (output : Sink) :
    calculate (c.withCurrent token) output = calculate c output := by
  have hf : Session.finish ⟨0, c.withCurrent token, output⟩ = Session.finish ⟨0, c, output⟩ :=
    Session.finish_congr (statement_withCurrent c token) rfl rfl
  rw [calculate, calculate, hf]

/-- **A new input is a new start.**  A calculator in any state, whatever was asked of it before, is
given a new input.  Nothing is read of that input yet, and the current token, the variables and the
journal, with its errors, its last problem and its diagnostics, stay as they are.  Any number of
statements then come to the same as those of a new calculator over that input, with these variables and
this journal, and they leave the same variables, the same journal and the same input; the journal has
every token fetched, with its place, and every problem reported.  One statement is enough to make the
calculators the same altogether.  So the session to the end of the input is the same, too. -/
theorem statements_setInput (c : Calculator) (input : Input) (n : Nat) (output : Sink) :
    let old := c.setInput input
    let new := ofInput input c.table c.journal
    (old.current = c.current ∧ old.table = c.table ∧ old.journal = c.journal ∧
      old.lexer.input = input) ∧
    (old.statements n).1 = (new.statements n).1 ∧
    (old.statements n).2.table = (new.statements n).2.table ∧
    (old.statements n).2.journal = (new.statements n).2.journal ∧
    (old.statements n).2.lexer.input = (new.statements n).2.lexer.input ∧
    (0 < n → old.statements n = new.statements n) ∧
    calculate old output = calculate new output := by
  intro old new
  have ho : old = new.withCurrent c.current := c.setInput_eq_withCurrent input
  refine ⟨⟨rfl, rfl, rfl, rfl⟩, ?_⟩
  rw [ho]
  cases n with
  | zero => exact ⟨rfl, rfl, rfl, rfl, nofun, calculate_withCurrent new _ output⟩
  | succ n =>
      rw [statements_withCurrent]
      exact ⟨rfl, rfl, rfl, rfl, fun _ => rfl, calculate_withCurrent new _ output⟩

end DeskCalculator.Calculator

import DeskCalculator.Calculator.Statement

/-!
# Sessions — Statements to the end of the input

A session evaluates statements until its input is exhausted and prints each value on a line of its
own.  What is left when it is over (`Run`) is the sink of the results, the journal, and the input;
its outcome is the text of both sinks and the number of errors.
-/

namespace DeskCalculator

/-- A session under way: the statements evaluated so far, the calculator, and the sink of their
values. -/
structure Session where
  statements : Nat
  calculator : Calculator
  output : Sink
  deriving DecidableEq

namespace Session

/-- Evaluates one statement and prints its value; tells whether the session goes on. -/
def step (s : Session) : Bool × Session :=
  match s.calculator.statement with
  | (.exhausted, c) => (false, { s with calculator := c.note (.finished s.statements c.errors) })
  | (.empty, c) => (true, { s with calculator := c })
  | (.value result, c) =>
      (true, ⟨s.statements + 1, c, s.output.println (Double.text result)⟩)

theorem weight_step_lt {s : Session} (h : s.step.1 = true) :
    s.step.2.calculator.weight < s.calculator.weight := by
  have hw := @Calculator.weight_statement_lt s.calculator
  unfold step at h ⊢
  generalize s.calculator.statement = r at h hw
  obtain ⟨statement, c⟩ := r
  cases statement with
  | exhausted => cases h
  | empty => exact hw nofun
  | value result => exact hw nofun

/-- Goes on until the input is exhausted. -/
def finish (s : Session) : Session :=
  match _ : s.step with
  | (true, s')  => s'.finish
  | (false, s') => s'
termination_by s.calculator.weight
decreasing_by
  rename_i h
  have hw := weight_step_lt (s := s) (by rw [h])
  rwa [h] at hw

end Session

/-- Evaluates statements until the input is exhausted, printing each value. -/
def calculate (c : Calculator) (output : Sink) : Calculator × Sink :=
  match Session.finish ⟨0, c, output⟩ with
  | ⟨_, c, output⟩ => (c, output)

/-- The exit status for a number of errors, which never wraps around to success. -/
def exitStatus (errors : Nat) : Nat := min errors 255

/-- The lines of a text, without the breaks that end them: a newline, or a carriage return and a
newline.  What follows the last break is a line if it is not empty. -/
def splitLines : List Char → List (List Char)
  | []                   => []
  | '\n' :: text         => [] :: splitLines text
  | '\r' :: '\n' :: text => [] :: splitLines text
  | c :: text            =>
      match splitLines text with
      | []            => [[c]]
      | line :: lines => (c :: line) :: lines

/-- What a run shows: its results, its diagnostics and the number of its errors. -/
structure Outcome where
  output : String
  diagnostics : String
  errors : Nat
  deriving DecidableEq, Repr

namespace Outcome

def exitStatus (o : Outcome) : Nat := DeskCalculator.exitStatus o.errors

/-- The result lines. -/
def lines (o : Outcome) : List String := (splitLines o.output.toList).map String.ofList

end Outcome

/-- What is left when a run is over. -/
structure Run where
  output : Sink
  journal : Journal
  input : Input
  deriving DecidableEq

/-- The captured texts and the number of errors. -/
def Run.outcome (r : Run) : Outcome := ⟨r.output.captured, r.journal.sink.captured, r.journal.errors⟩

/-- A run over an input, from the seeded table. -/
def run (input : Input) (output diagnostics : Sink) : Run :=
  match calculate (.ofInput input .seeded (.ofSink diagnostics)) output with
  | (c, output) => ⟨output, c.journal, c.lexer.input⟩

/-- A run that captures its results and its diagnostics. -/
def runCaptured (input : Input) : Run := run input (.buffer "") (.buffer "")

/-- The outcome of a text. -/
def runSource (source : String) : Outcome := (runCaptured (.ofString source)).outcome

end DeskCalculator

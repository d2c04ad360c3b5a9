import DeskCalculator.Session

/-!
# Sessions — Requests

The owner of a calculator asks it to evaluate, gives it another input, writes its variables, reports
problems of its own, and empties the sink of the diagnostics or takes its text (`Request`), in any
order.
-/

namespace DeskCalculator

/-- What a calculator may be asked to do. -/
inductive Request where
  | statement
  | evaluate (lookahead : Calculator.Lookahead)
  /-- Evaluate statements until the input is exhausted. -/
  | calculate (output : Sink)
  | setInput (input : Input)
  | report (problem : Problem)
  /-- Empty the sink. -/
  | clear
  /-- Take the text of the sink. -/
  | take
  /-- Change the variables. -/
  | write (table : Table)

namespace Calculator

/-- The calculator after a request. -/
def perform (c : Calculator) : Request → Calculator
  | .statement          => c.statement.2
  | .evaluate lookahead => (c.evaluateFrom lookahead).2
  | .calculate output   => (DeskCalculator.calculate c output).1
  | .setInput input     => c.setInput input
  | .report problem     => c.report problem
  | .clear              => { c with journal := c.journal.clear }
  | .take               => { c with journal := c.journal.take.2 }
  | .write table        => { c with table := table }

/-- The calculator after some requests, one after the other. -/
def performAll (c : Calculator) (requests : List Request) : Calculator := requests.foldl perform c

end Calculator

end DeskCalculator

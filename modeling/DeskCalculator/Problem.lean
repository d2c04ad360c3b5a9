/-!
# Diagnostics — Problems

The faults a run can find.  Each has a message, the text after `error: ` on its diagnostic line; a
code, whose first digit is the phase that found it; and a category, the name of that phase.
-/

namespace DeskCalculator

/-- The phase a problem belongs to. -/
inductive Category where
  /-- A character that starts no token. -/
  | lexical
  /-- A statement outside the grammar. -/
  | grammatical
  /-- A division by zero. -/
  | arithmetic
  /-- A command line that is refused before anything is evaluated. -/
  | usage
  deriving DecidableEq, Repr

def Category.name : Category → String
  | .lexical     => "Lexical"
  | .grammatical => "Syntax"
  | .arithmetic  => "Arithmetic"
  | .usage       => "Usage"

/-- A fault the calculator reports. -/
inductive Problem where
  /-- No token starts with `found`. -/
  | badToken (found : Char)
  /-- The current token cannot start a primary. -/
  | primaryExpected
  /-- A parenthesis is still open where its `)` is due. -/
  | unclosedParen
  /-- A divisor is zero. -/
  | divideByZero
  /-- The command line holds `count` arguments, more than one. -/
  | tooManyArguments (count : Nat)
  deriving DecidableEq, Repr

namespace Problem

def message : Problem → String
  | .badToken _         => "bad token"
  | .primaryExpected    => "primary expected"
  | .unclosedParen      => "')' expected"
  | .divideByZero       => "divide by zero"
  | .tooManyArguments _ => "too many arguments"

def code : Problem → String
  | .badToken _         => "E0001"
  | .primaryExpected    => "E1001"
  | .unclosedParen      => "E1002"
  | .divideByZero       => "E2001"
  | .tooManyArguments _ => "E3001"

def category : Problem → Category
  | .badToken _         => .lexical
  | .primaryExpected    => .grammatical
  | .unclosedParen      => .grammatical
  | .divideByZero       => .arithmetic
  | .tooManyArguments _ => .usage

/-- The diagnostic line of a problem, without its newline. -/
def line (p : Problem) : String := "error: " ++ p.message

end Problem

end DeskCalculator

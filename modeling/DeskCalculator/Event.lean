import DeskCalculator.Problem
import DeskCalculator.Token

/-!
# Diagnostics — Events

What a run does, step by step: the tokens it fetches, the reads that fail, the problems it reports,
the statements it evaluates, and its end.  An event has a level, the component it comes from, a
message, and fields with their texts.
-/

namespace DeskCalculator

/-- The weight of an event. -/
inductive Level where
  | trace
  | debug
  | warn
  deriving DecidableEq, Repr

namespace Level

def rank : Level → Nat
  | .trace => 0
  | .debug => 1
  | .warn  => 2

def name : Level → String
  | .trace => "TRACE"
  | .debug => "DEBUG"
  | .warn  => "WARN"

end Level

/-- The part of the calculator an event comes from. -/
inductive Component where
  | lexer
  | journal
  | calculator
  | session
  deriving DecidableEq, Repr

inductive Event where
  /-- A token has become the current one. -/
  | fetched (token : Token)
  /-- A read failed after `line` lines. -/
  | readFailed (message : String) (line : UInt32)
  /-- A problem was reported, as the `count`-th. -/
  | reported (problem : Problem) (count : Nat)
  /-- A statement was evaluated; `faulted` if problems were reported meanwhile. -/
  | evaluated (value : Float) (faulted : Bool)
  /-- The input has come to its end, after so many statements and errors. -/
  | finished (statements errors : Nat)
  deriving DecidableEq

namespace Event

def level : Event → Level
  | .fetched _      => .trace
  | .readFailed ..  => .warn
  | .reported ..    => .debug
  | .evaluated ..   => .debug
  | .finished ..    => .debug

def component : Event → Component
  | .fetched _      => .lexer
  | .readFailed ..  => .lexer
  | .reported ..    => .journal
  | .evaluated ..   => .calculator
  | .finished ..    => .session

def message : Event → String
  | .fetched token      => token.kind.text
  | .readFailed ..      => "read failed, treating as end of input"
  | .reported problem _ => problem.message
  | .evaluated ..       => "statement"
  | .finished ..        => "input exhausted"

/-- The names and texts of the fields. -/
def fields : Event → List (String × String)
  | .fetched token =>
      [("line", toString token.span.line.toNat), ("start", toString token.span.start.toNat)]
  | .readFailed message line => [("err", message), ("line", toString line.toNat)]
  | .reported problem count =>
      [("code", problem.code), ("category", problem.category.name), ("count", toString count)]
  | .evaluated value faulted =>
      [("value", Double.text value), ("faulted", if faulted then "true" else "false")]
  | .finished statements errors =>
      [("evaluated", toString statements), ("errors", toString errors)]

end Event

end DeskCalculator

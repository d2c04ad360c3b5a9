import DeskCalculator.Session

/-!
# Sessions — The command line

The program takes at most one argument: the statements to evaluate.  Without one it reads standard
input.  `--help` and `--version` are options when they are the whole argument, so an expression that
reads like one is written with a blank in front.  More than one argument is refused: the problem is
reported and nothing is evaluated.
-/

namespace DeskCalculator.CommandLine

/-- What the program is asked to do. -/
inductive Invocation where
  /-- Evaluate standard input. -/
  | interactive
  /-- Evaluate a text. -/
  | expression (source : String)
  | help
  | version
  deriving DecidableEq, Repr

/-- The request in the arguments after the program's name. -/
def parse : List String → Except Problem Invocation
  | [] => .ok .interactive
  | [argument] =>
      if argument = "--help" then .ok .help
      else if argument = "--version" then .ok .version
      else .ok (.expression argument)
  | arguments => .error (.tooManyArguments arguments.length)

def usage : String :=
"Desk calculator

Usage: desk [STATEMENTS]

Reads statements from standard input, or evaluates STATEMENTS.
Statements end at a newline or `;`. Each result is printed on
its own line; the exit status is the number of errors.

Options:
  --help       Show this help message
  --version    Show version information

An argument that is exactly `--help` or `--version` is taken as the
option. To evaluate it as an expression, start it with a blank:
  desk ' --help'

Examples:
  desk 'r=2; pi*r*r'
  echo '(2+3)*4' | desk"

def version : String := "desk 0.1.0"

/-- Does what the arguments ask for.  `stdin` is read only when there are none. -/
def execute (arguments : List String) (stdin : Input) (output diagnostics : Sink) : Run :=
  match parse arguments with
  | .ok .interactive => run stdin output diagnostics
  | .ok (.expression source) =>
      { run (.ofString source) output diagnostics with input := stdin }
  | .ok .help => ⟨output.println usage, .ofSink diagnostics, stdin⟩
  | .ok .version => ⟨output.println version, .ofSink diagnostics, stdin⟩
  | .error problem => ⟨output, (Journal.ofSink diagnostics).report problem, stdin⟩

end DeskCalculator.CommandLine

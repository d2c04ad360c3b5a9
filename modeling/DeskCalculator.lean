import DeskCalculator.Problem
import DeskCalculator.Sink
import DeskCalculator.Decimal.Double
import DeskCalculator.Decimal.Basic
import DeskCalculator.Decimal.Shortest
import DeskCalculator.Decimal.Positional
import DeskCalculator.Text.Utf8
import DeskCalculator.Reader
import DeskCalculator.Numeral
import DeskCalculator.Decimal.Reading
import DeskCalculator.Token
import DeskCalculator.Lexeme
import DeskCalculator.Event
import DeskCalculator.Journal
import DeskCalculator.Lexer
import DeskCalculator.Lexer.Cursor
import DeskCalculator.Lexer.Scanner
import DeskCalculator.Table
import DeskCalculator.Calculator.Basic
import DeskCalculator.Calculator.Evaluation
import DeskCalculator.Calculator.Statement
import DeskCalculator.Session
import DeskCalculator.Session.Requests
import DeskCalculator.CommandLine
import DeskCalculator.Main
import DeskCalculator.Proofs.Evaluation.Rules
import DeskCalculator.Proofs.Lexer.Fetch
import DeskCalculator.Proofs.Lexer.Tokens
import DeskCalculator.Proofs.Lexer.Exhaustion
import DeskCalculator.Proofs.Evaluation.Passes
import DeskCalculator.Proofs.Grammar.Completeness
import DeskCalculator.Proofs.Grammar.Soundness
import DeskCalculator.Proofs.Reader.Lines
import DeskCalculator.Proofs.Text.Utf8
import DeskCalculator.Proofs.Lexer.Delimiter
import DeskCalculator.Proofs.Evaluation.Simulation
import DeskCalculator.Proofs.Lexer.Text
import DeskCalculator.Proofs.Lexer.Numeral
import DeskCalculator.Proofs.Lexer.Position
import DeskCalculator.Proofs.Session.Lockstep
import DeskCalculator.Proofs.Lexer.Chunking
import DeskCalculator.Proofs.Session.Chunking
import DeskCalculator.Proofs.Lexer.Separator
import DeskCalculator.Proofs.Evaluation.Beside
import DeskCalculator.Proofs.Session.Separators
import DeskCalculator.Proofs.Lexer.Tiling
import DeskCalculator.Proofs.Evaluation.Consumption
import DeskCalculator.Proofs.Session.Ledger
import DeskCalculator.Proofs.Session.Termination
import DeskCalculator.Proofs.Lexer.Newlines
import DeskCalculator.Proofs.Session.Laziness
import DeskCalculator.Proofs.Evaluation.Assignment
import DeskCalculator.Proofs.Lexer.Failure
import DeskCalculator.Proofs.Session.Failure
import DeskCalculator.Proofs.Lexer.Longest
import DeskCalculator.Proofs.Lexer.Layout
import DeskCalculator.Proofs.Session.Layout
import DeskCalculator.Proofs.Table.Changes
import DeskCalculator.Proofs.Lexer.Names
import DeskCalculator.Proofs.Session.Independence
import DeskCalculator.Proofs.Evaluation.Log
import DeskCalculator.Proofs.Session.Chronicle
import DeskCalculator.Proofs.Session.Requests
import DeskCalculator.Proofs.Evaluation.Terminators
import DeskCalculator.Proofs.Grammar.Abandonment
import DeskCalculator.Proofs.Session.Invocation
import DeskCalculator.Proofs.Decimal.Rounding
import DeskCalculator.Proofs.Decimal.Shortest
import DeskCalculator.Proofs.Decimal.Positional
import DeskCalculator.Proofs.Decimal.Sign
import DeskCalculator.Proofs.Session.Results
import DeskCalculator.Proofs.Decimal.Reading
import DeskCalculator.Proofs.Lexer.Numbers
import DeskCalculator.Proofs.Lexer.Rendering
import DeskCalculator.Proofs.Session.Restart
import DeskCalculator.Proofs.Lexer.History
import DeskCalculator.Proofs.Session.Exhaustion
import DeskCalculator.Proofs.Evaluation.Acts
import DeskCalculator.Proofs.Evaluation.Footprint
import DeskCalculator.Proofs.Evaluation.Parentheses
import DeskCalculator.Proofs.Session.Creation
import DeskCalculator.Proofs.Lexer.Segments
import DeskCalculator.Proofs.Session.Segments
import DeskCalculator.Proofs.Lexer.Cursor
import DeskCalculator.Proofs.Lexer.Scanner
import DeskCalculator.Proofs.Lexer.LineNumbers

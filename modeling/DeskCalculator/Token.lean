import DeskCalculator.Decimal.Positional

/-!
# Tokens — Kinds, spans and tokens

A token is a kind and the place of its text: the number of its line, counted from one, and the
offsets in bytes of its first character and of the character after its last.
-/

namespace DeskCalculator

/-- What a token is. -/
inductive Kind where
  /-- A letter, then letters and digits. -/
  | name (word : String)
  | number (value : Float)
  /-- A newline, a `;`, or the end of the input. -/
  | terminator
  | plus
  | minus
  | times
  | divide
  | assign
  | openParen
  | closeParen
  /-- A character that starts no token. -/
  | bad (found : Char)
  deriving DecidableEq

namespace Kind

/-- The kind of an operator or a parenthesis. -/
def ofOperator? : Char → Option Kind
  | '+' => some .plus
  | '-' => some .minus
  | '*' => some .times
  | '/' => some .divide
  | '=' => some .assign
  | '(' => some .openParen
  | ')' => some .closeParen
  | _   => none

def isTerminator : Kind → Bool
  | .terminator => true
  | _           => false

/-- The kind alone, without what it carries. -/
def label : Kind → String
  | .name _     => "name"
  | .number _   => "number"
  | .terminator => "end"
  | .plus       => "+"
  | .minus      => "-"
  | .times      => "*"
  | .divide     => "/"
  | .assign     => "="
  | .openParen  => "("
  | .closeParen => ")"
  | .bad _      => "<bad token>"

/-- The kind with its name or its value. -/
def text : Kind → String
  | .name word    => "name `" ++ word ++ "`"
  | .number value => "number " ++ Double.text value
  | kind          => kind.label

end Kind

/-- A line, and a stretch of bytes in it. -/
structure Span where
  line : UInt32
  start : UInt32
  stop : UInt32
  deriving DecidableEq, Repr

structure Token where
  kind : Kind
  span : Span
  deriving DecidableEq

/-- The token before any was read. -/
def Token.initial : Token := ⟨.terminator, ⟨0, 0, 0⟩⟩

end DeskCalculator

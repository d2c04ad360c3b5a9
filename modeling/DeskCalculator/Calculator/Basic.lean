import DeskCalculator.Lexer
import DeskCalculator.Table

/-!
# Evaluation — The calculator

What one session owns: the tokens to come, the variables, and the journal.  Everything the evaluation
does to it is one of the steps below: fetching a token, reporting a problem, reading or writing a
variable.

`weight` is what an evaluation has left to work on: twice what the lexer has left, and one if the
current token is not a terminator.  Fetching past such a token makes it smaller
(`weight_advance_lt`), and no step makes it larger.
-/

namespace DeskCalculator

structure Calculator where
  lexer : Lexer
  table : Table
  journal : Journal
  deriving DecidableEq

namespace Calculator

/-- A calculator that has read nothing of `input`. -/
def ofInput (input : Input) (table : Table) (journal : Journal) : Calculator :=
  ⟨.ofInput input, table, journal⟩

/-- Goes on with another input; the current token, the variables and the journal stay. -/
def setInput (c : Calculator) (input : Input) : Calculator :=
  { c with lexer := c.lexer.setInput input }

/-- The current token. -/
def current (c : Calculator) : Token := c.lexer.current

/-- The kind of the current token. -/
def kind (c : Calculator) : Kind := c.lexer.current.kind

/-- The number of problems reported so far. -/
def errors (c : Calculator) : Nat := c.journal.errors

/-- Fetches the next token. -/
def advance : Calculator → Calculator
  | ⟨lexer, table, journal⟩ =>
      match lexer.next journal with
      | (lexer, journal) => ⟨lexer, table, journal⟩

/-- Reports a problem. -/
def report (c : Calculator) (problem : Problem) : Calculator :=
  { c with journal := c.journal.report problem }

/-- Notes an event. -/
def note (c : Calculator) (event : Event) : Calculator :=
  { c with journal := c.journal.note event }

/-- Creates a variable if it is missing. -/
def touch (c : Calculator) (name : String) : Calculator := { c with table := c.table.touch name }

/-- Gives a variable a value. -/
def store (c : Calculator) (name : String) (value : Float) : Calculator :=
  { c with table := c.table.set name value }

/-! ### The weight -/

/-- What an evaluation has left to work on. -/
def weight (c : Calculator) : Nat :=
  2 * c.lexer.remaining + if c.kind = .terminator then 0 else 1

theorem weight_report (c : Calculator) (problem : Problem) :
    (c.report problem).weight = c.weight := rfl

theorem weight_touch (c : Calculator) (name : String) : (c.touch name).weight = c.weight := rfl

theorem weight_store (c : Calculator) (name : String) (value : Float) :
    (c.store name value).weight = c.weight := rfl

/-- A fetch works on something, or finds the input exhausted and leaves nothing to work on. -/
theorem advance_progress (c : Calculator) :
    c.advance.weight < 2 * c.lexer.remaining ∨
      c.advance.weight = 0 ∧ c.advance.kind = .terminator ∧ c.advance.lexer.exhausted = true := by
  have hw : c.advance.weight ≤ 2 * c.advance.lexer.remaining + 1 := by
    unfold weight
    split <;> omega
  rcases Lexer.next_progress c.lexer c.journal with h | ⟨hr, hk, hx⟩
  · have ha : c.advance.lexer.remaining < c.lexer.remaining := h
    exact .inl (by omega)
  · have ha : c.advance.lexer.remaining = 0 := hr
    have hk' : c.advance.kind = .terminator := hk
    exact .inr ⟨by simp [weight, ha, hk'], hk', hx⟩

theorem weight_advance_le (c : Calculator) : c.advance.weight ≤ c.weight := by
  have hw : 2 * c.lexer.remaining ≤ c.weight := Nat.le_add_right _ _
  rcases advance_progress c with h | ⟨h, -, -⟩ <;> omega

/-- A token that is no terminator is something to work on. -/
theorem weight_advance_lt {c : Calculator} (hk : c.kind ≠ .terminator) :
    c.advance.weight < c.weight := by
  have hw : c.weight = 2 * c.lexer.remaining + 1 := by simp [weight, hk]
  rcases advance_progress c with h | ⟨h, -, -⟩ <;> omega

end Calculator

end DeskCalculator

import DeskCalculator.Calculator.Evaluation

/-!
# Evaluation — Statements

A statement is fetched and evaluated up to its terminator.  A terminator or a bad token in its place
is an empty statement, and the terminator of an exhausted input ends the session.  Every statement
but that last one takes something of the input (`weight_statement_lt`).
-/

namespace DeskCalculator

/-- What a step of the session came to. -/
inductive Statement where
  | value (result : Float)
  | empty
  | exhausted
  deriving DecidableEq

namespace Calculator

/-- Evaluates the expression that starts at the current token, and notes it. -/
def evaluateStatement (c : Calculator) : Statement × Calculator :=
  let before := c.errors
  match c.evaluate with
  | (value, after) => (.value value, after.note (.evaluated value (before < after.errors)))

/-- Reads and evaluates one statement. -/
def statement (c : Calculator) : Statement × Calculator :=
  let c := c.advance
  match c.kind with
  | .terminator => (if c.lexer.exhausted then .exhausted else .empty, c)
  | .bad _      => (.empty, c)
  | _           => c.evaluateStatement

theorem weight_evaluateStatement_le (c : Calculator) :
    c.evaluateStatement.2.weight ≤ c.weight := by
  have h := weight_evaluate_le c
  unfold evaluateStatement
  generalize c.evaluate = r at h
  obtain ⟨value, after⟩ := r
  exact h

/-- A statement leaves less of the input, or finds it exhausted. -/
theorem weight_statement_lt {c : Calculator} (h : c.statement.1 ≠ .exhausted) :
    c.statement.2.weight < c.weight := by
  have hw : 2 * c.lexer.remaining ≤ c.weight := Nat.le_add_right _ _
  have hle : c.statement.2.weight ≤ c.advance.weight := by
    simp only [statement]
    split
    · exact Nat.le_refl _
    · exact Nat.le_refl _
    · exact weight_evaluateStatement_le c.advance
  rcases advance_progress c with hp | ⟨-, hk, hx⟩
  · omega
  · exact absurd (by simp [statement, hk, hx]) h

end Calculator

end DeskCalculator

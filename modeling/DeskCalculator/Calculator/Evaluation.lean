import DeskCalculator.Calculator.Basic

/-!
# Evaluation — The grammar

Statements are evaluated while they are read:

    expression := term, then any number of '+' term or '-' term
    term       := primary, then any number of '*' primary or '/' primary
    primary    := number | name | name '=' expression | '-' primary | '(' expression ')'

Sums and products are taken from the left.  Each part starts at the current token and leaves current
the first token it did not take, also where it is faulty: a token that starts no primary is reported
and left, a `)` that is missing is reported and not looked for, and a zero divisor ends its term with
the token after the divisor current.  A faulty part has the value `faultValue`.

Reading a variable creates it; an assignment takes the whole expression after its `=`, stores the
value and has it.

Every part leaves the calculator no heavier than it found it, and works past the token it decides
on, so evaluation ends on every input.
-/

namespace DeskCalculator.Calculator

/-- What the evaluation of a part of a statement comes to: its value, and the calculator after it,
which is no heavier than the one before. -/
structure Reached (c : Calculator) where
  value : Float
  after : Calculator
  le : after.weight ≤ c.weight

mutual

/-- A primary, from its first token. -/
def primary (c : Calculator) : Reached c :=
  match hk : c.kind with
  | .number value => ⟨value, c.advance, weight_advance_le c⟩
  | .name name =>
      have hlt := weight_advance_lt (c := c) (by rw [hk]; nofun)
      match variableOf name c.advance with
      | ⟨value, after, le⟩ => ⟨value, after, by omega⟩
  | .minus =>
      have hlt := weight_advance_lt (c := c) (by rw [hk]; nofun)
      match primary c.advance with
      | ⟨value, after, le⟩ => ⟨-value, after, by omega⟩
  | .openParen =>
      have hlt := weight_advance_lt (c := c) (by rw [hk]; nofun)
      match expression c.advance with
      | ⟨value, after, le⟩ =>
          match after.kind with
          | .closeParen =>
              ⟨value, after.advance, by have := weight_advance_le after; omega⟩
          | _ => ⟨faultValue, after.report .unclosedParen, by rw [weight_report]; omega⟩
  | _ => ⟨faultValue, c.report .primaryExpected, Nat.le_of_eq (weight_report c _)⟩
termination_by 3 * c.weight

/-- A variable, from the token after its name: an assignment if that is `=`, else a reading. -/
def variableOf (name : String) (c : Calculator) : Reached c :=
  match hk : c.kind with
  | .assign =>
      have hlt := weight_advance_lt (c := c) (by rw [hk]; nofun)
      match expression c.advance with
      | ⟨value, after, le⟩ =>
          ⟨value, after.store name value, by rw [weight_store]; omega⟩
  | _ => ⟨c.table.value name, c.touch name, Nat.le_of_eq (weight_touch c name)⟩
termination_by 3 * c.weight

/-- The factors of a term after the first, from the token after it; `product` is the value so far. -/
def factors (product : Float) (c : Calculator) : Reached c :=
  match hk : c.kind with
  | .times =>
      have hlt := weight_advance_lt (c := c) (by rw [hk]; nofun)
      match primary c.advance with
      | ⟨value, after, le⟩ =>
          match factors (product * value) after with
          | ⟨value, after, le'⟩ => ⟨value, after, by omega⟩
  | .divide =>
      have hlt := weight_advance_lt (c := c) (by rw [hk]; nofun)
      match primary c.advance with
      | ⟨divisor, after, le⟩ =>
          if divisor == 0 then
            ⟨faultValue, after.report .divideByZero, by rw [weight_report]; omega⟩
          else
            match factors (product / divisor) after with
            | ⟨value, after, le'⟩ => ⟨value, after, by omega⟩
  | _ => ⟨product, c, Nat.le_refl _⟩
termination_by 3 * c.weight

/-- A term, from its first token. -/
def term (c : Calculator) : Reached c :=
  match primary c with
  | ⟨value, after, le⟩ =>
      match factors value after with
      | ⟨value, after, le'⟩ => ⟨value, after, by omega⟩
termination_by 3 * c.weight + 1

/-- The terms of an expression after the first, from the token after it; `sum` is the value so
far. -/
def terms (sum : Float) (c : Calculator) : Reached c :=
  match hk : c.kind with
  | .plus =>
      have hlt := weight_advance_lt (c := c) (by rw [hk]; nofun)
      match term c.advance with
      | ⟨value, after, le⟩ =>
          match terms (sum + value) after with
          | ⟨value, after, le'⟩ => ⟨value, after, by omega⟩
  | .minus =>
      have hlt := weight_advance_lt (c := c) (by rw [hk]; nofun)
      match term c.advance with
      | ⟨value, after, le⟩ =>
          match terms (sum - value) after with
          | ⟨value, after, le'⟩ => ⟨value, after, by omega⟩
  | _ => ⟨sum, c, Nat.le_refl _⟩
termination_by 3 * c.weight

/-- An expression, from its first token. -/
def expression (c : Calculator) : Reached c :=
  match term c with
  | ⟨value, after, le⟩ =>
      match terms value after with
      | ⟨value, after, le'⟩ => ⟨value, after, by omega⟩
termination_by 3 * c.weight + 2

end

/-- Evaluates the expression that starts at the current token. -/
def evaluate (c : Calculator) : Float × Calculator := (c.expression.value, c.expression.after)

/-- Evaluates the expression that starts at the next token. -/
def evaluateNext (c : Calculator) : Float × Calculator := c.advance.evaluate

/-- Whether an evaluation fetches a token before it starts. -/
inductive Lookahead where
  | fetch
  | current
  deriving DecidableEq, Repr

/-- The calculator an evaluation starts in. -/
def start (c : Calculator) : Lookahead → Calculator
  | .fetch   => c.advance
  | .current => c

/-- Evaluates the expression that starts at the token the lookahead asks for. -/
def evaluateFrom (c : Calculator) : Lookahead → Float × Calculator
  | .fetch   => c.evaluateNext
  | .current => c.evaluate

theorem evaluateFrom_eq_evaluate (c : Calculator) (lookahead : Lookahead) :
    c.evaluateFrom lookahead = (c.start lookahead).evaluate := by
  cases lookahead <;> rfl

theorem weight_evaluate_le (c : Calculator) : c.evaluate.2.weight ≤ c.weight := c.expression.le

end DeskCalculator.Calculator

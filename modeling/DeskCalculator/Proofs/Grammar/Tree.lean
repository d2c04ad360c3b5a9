import DeskCalculator.Proofs.Lexer.Fetch
import DeskCalculator.Table

/-!
# Grammar — Syntax trees

The trees of the grammar of statements, a type for each of its symbols, with the tokens a tree is
written with (`kinds`) and its value (`eval?`): left to right, with the table handed on from part to
part, and without a value if a divisor is zero.

An assignment takes the whole expression after its `=`, so what follows it in a sum or a product is
read as a part of its right-hand side.  A tree has the shape its tokens are read in if an assignment
that no parenthesis closes is the last primary of its expression (`Placed`).
-/

namespace DeskCalculator.Grammar

mutual

inductive Primary where
  | number (value : Float)
  | reading (name : String)
  | assignment (name : String) (right : Expression)
  | negation (operand : Primary)
  | group (inner : Expression)

/-- The factors of a term after the first. -/
inductive Factors where
  | none
  | times (factor : Primary) (rest : Factors)
  | divide (divisor : Primary) (rest : Factors)

inductive Term where
  | mk (first : Primary) (rest : Factors)

/-- The terms of an expression after the first. -/
inductive Terms where
  | none
  | plus (summand : Term) (rest : Terms)
  | minus (summand : Term) (rest : Terms)

inductive Expression where
  | mk (first : Term) (rest : Terms)

end

/-! ### The tokens of a tree -/

mutual

def Primary.kinds : Primary → List Kind
  | .number value          => [.number value]
  | .reading name          => [.name name]
  | .assignment name right => .name name :: .assign :: right.kinds
  | .negation operand      => .minus :: operand.kinds
  | .group inner           => .openParen :: (inner.kinds ++ [.closeParen])

def Factors.kinds : Factors → List Kind
  | .none                => []
  | .times factor rest   => .times :: (factor.kinds ++ rest.kinds)
  | .divide divisor rest => .divide :: (divisor.kinds ++ rest.kinds)

def Term.kinds : Term → List Kind
  | .mk first rest => first.kinds ++ rest.kinds

def Terms.kinds : Terms → List Kind
  | .none               => []
  | .plus summand rest  => .plus :: (summand.kinds ++ rest.kinds)
  | .minus summand rest => .minus :: (summand.kinds ++ rest.kinds)

def Expression.kinds : Expression → List Kind
  | .mk first rest => first.kinds ++ rest.kinds

end

mutual

theorem Primary.problems_kinds : ∀ p : Primary, p.kinds.flatMap Kind.problems = []
  | .number _ | .reading _ => rfl
  | .assignment _ right    => right.problems_kinds
  | .negation operand      => operand.problems_kinds
  | .group inner           => by
      simp [Primary.kinds, Kind.problems, inner.problems_kinds]

theorem Factors.problems_kinds : ∀ fs : Factors, fs.kinds.flatMap Kind.problems = []
  | .none                                    => rfl
  | .times factor rest | .divide factor rest => by
      simp [Factors.kinds, Kind.problems, factor.problems_kinds, rest.problems_kinds]

theorem Term.problems_kinds : ∀ t : Term, t.kinds.flatMap Kind.problems = []
  | .mk first rest => by
      simp [Term.kinds, first.problems_kinds, rest.problems_kinds]

theorem Terms.problems_kinds : ∀ ts : Terms, ts.kinds.flatMap Kind.problems = []
  | .none                                    => rfl
  | .plus summand rest | .minus summand rest => by
      simp [Terms.kinds, Kind.problems, summand.problems_kinds, rest.problems_kinds]

/-- No token of a tree is bad. -/
theorem Expression.problems_kinds : ∀ e : Expression, e.kinds.flatMap Kind.problems = []
  | .mk first rest => by
      simp [Expression.kinds, first.problems_kinds, rest.problems_kinds]

end

theorem Primary.kinds_ne_nil : ∀ p : Primary, p.kinds ≠ []
  | .number _ | .reading _ | .assignment .. | .negation _ | .group _ => nofun

theorem Expression.kinds_ne_nil : ∀ e : Expression, e.kinds ≠ []
  | .mk (.mk first _) _ => fun h =>
      first.kinds_ne_nil (List.append_eq_nil_iff.mp (List.append_eq_nil_iff.mp h).1).1

/-! ### The value of a tree -/

mutual

/-- The value of a primary and the table after it. -/
def Primary.eval? : Primary → Table → Option (Float × Table)
  | .number value, t          => some (value, t)
  | .reading name, t          => some (t.value name, t.touch name)
  | .assignment name right, t => do
      let (value, t) ← right.eval? t
      some (value, t.set name value)
  | .negation operand, t      => do
      let (value, t) ← operand.eval? t
      some (-value, t)
  | .group inner, t           => inner.eval? t

/-- The value of a product that goes on with these factors. -/
def Factors.eval? : Factors → Float → Table → Option (Float × Table)
  | .none, product, t                => some (product, t)
  | .times factor rest, product, t   => do
      let (value, t) ← factor.eval? t
      rest.eval? (product * value) t
  | .divide divisor rest, product, t => do
      let (value, t) ← divisor.eval? t
      if value == 0 then none else rest.eval? (product / value) t

def Term.eval? : Term → Table → Option (Float × Table)
  | .mk first rest, t => do
      let (value, t) ← first.eval? t
      rest.eval? value t

/-- The value of a sum that goes on with these terms. -/
def Terms.eval? : Terms → Float → Table → Option (Float × Table)
  | .none, sum, t               => some (sum, t)
  | .plus summand rest, sum, t  => do
      let (value, t) ← summand.eval? t
      rest.eval? (sum + value) t
  | .minus summand rest, sum, t => do
      let (value, t) ← summand.eval? t
      rest.eval? (sum - value) t

def Expression.eval? : Expression → Table → Option (Float × Table)
  | .mk first rest, t => do
      let (value, t) ← first.eval? t
      rest.eval? value t

end

/-! ### Assignments that stand last -/

/-- Whether a primary is an assignment, perhaps under minus signs: no parenthesis ends its right-hand
side. -/
def Primary.Open : Primary → Prop
  | .assignment ..    => True
  | .negation operand => operand.Open
  | _                 => False

def Factors.primaries : Factors → List Primary
  | .none                                    => []
  | .times factor rest | .divide factor rest => factor :: rest.primaries

def Term.primaries : Term → List Primary
  | .mk first rest => first :: rest.primaries

def Terms.primaries : Terms → List Primary
  | .none                                    => []
  | .plus summand rest | .minus summand rest => summand.primaries ++ rest.primaries

/-- The primaries of an expression in order, without those inside of them. -/
def Expression.primaries : Expression → List Primary
  | .mk first rest => first.primaries ++ rest.primaries

mutual

def Primary.Placed : Primary → Prop
  | .number _ | .reading _ => True
  | .assignment _ right    => right.Placed
  | .negation operand      => operand.Placed
  | .group inner           => inner.Placed

def Factors.Placed : Factors → Prop
  | .none                                    => True
  | .times factor rest | .divide factor rest => factor.Placed ∧ rest.Placed

def Term.Placed : Term → Prop
  | .mk first rest => first.Placed ∧ rest.Placed

def Terms.Placed : Terms → Prop
  | .none                                    => True
  | .plus summand rest | .minus summand rest => summand.Placed ∧ rest.Placed

/-- In the expression and in all expressions inside of it, only the last primary may be an open
assignment. -/
def Expression.Placed : Expression → Prop
  | .mk first rest =>
      (∀ p ∈ (Expression.mk first rest).primaries.dropLast, ¬ p.Open) ∧ first.Placed ∧ rest.Placed

end

theorem Term.primaries_ne_nil : ∀ t : Term, t.primaries ≠ []
  | .mk _ _ => nofun

theorem Terms.primaries_eq_nil {ts : Terms} (h : ts.primaries = []) : ts = .none := by
  cases ts with
  | none => rfl
  | plus summand rest | minus summand rest =>
      exact absurd (List.append_eq_nil_iff.mp h).1 summand.primaries_ne_nil

theorem Factors.primaries_eq_nil {fs : Factors} (h : fs.primaries = []) : fs = .none := by
  cases fs with
  | none => rfl
  | times | divide => cases h

end DeskCalculator.Grammar

import DeskCalculator.Calculator.Evaluation

/-!
# Evaluation — The rules

What the evaluation of a part of a statement can do, as a relation: `Evaluates p c v c'` says that
the part `p`, read from the calculator `c`, has the value `v` and leaves the calculator `c'`.  There
is one rule for each choice the evaluation makes, and the premises of a rule are the parts it
evaluates on the way.  The relation is the graph of the evaluation (`evaluates_iff`), so a fact about
every run of the grammar, faulty ones included, is one induction over the rules.
-/

namespace DeskCalculator

namespace Kind

/-- Whether a primary starts with a token of this kind. -/
def startsPrimary : Kind → Bool
  | .number _ | .name _ | .minus | .openParen => true
  | _                                         => false

/-- Whether a token of this kind goes on with a term. -/
def continuesTerm : Kind → Bool
  | .times | .divide => true
  | _                => false

/-- Whether a token of this kind goes on with a sum. -/
def continuesSum : Kind → Bool
  | .plus | .minus => true
  | _              => false

theorem startsPrimary_eq_false {k : Kind} (hn : ∀ value, k ≠ .number value)
    (hw : ∀ word, k ≠ .name word) (hm : k ≠ .minus) (hp : k ≠ .openParen) :
    k.startsPrimary = false := by
  cases k with
  | number value => exact absurd rfl (hn value)
  | name word => exact absurd rfl (hw word)
  | minus => exact absurd rfl hm
  | openParen => exact absurd rfl hp
  | terminator | plus | times | divide | assign | closeParen | bad _ => rfl

theorem continuesTerm_eq_false {k : Kind} (ht : k ≠ .times) (hd : k ≠ .divide) :
    k.continuesTerm = false := by
  cases k with
  | times => exact absurd rfl ht
  | divide => exact absurd rfl hd
  | _ => rfl

theorem continuesSum_eq_false {k : Kind} (hp : k ≠ .plus) (hm : k ≠ .minus) :
    k.continuesSum = false := by
  cases k with
  | plus => exact absurd rfl hp
  | minus => exact absurd rfl hm
  | _ => rfl

end Kind

namespace Calculator

/-- A part of a statement, with what its evaluation was told of the tokens before it. -/
inductive Part where
  | primary
  /-- A primary that starts with a name, from the token after the name. -/
  | variableOf (name : String)
  /-- The factors of a term after the first. -/
  | factors (product : Float)
  | term
  /-- The terms of an expression after the first. -/
  | terms (sum : Float)
  | expression

/-- The evaluation of a part. -/
def Part.run : Part → Calculator → Float × Calculator
  | .primary,         c => (c.primary.value, c.primary.after)
  | .variableOf name, c => ((c.variableOf name).value, (c.variableOf name).after)
  | .factors product, c => ((c.factors product).value, (c.factors product).after)
  | .term,            c => (c.term.value, c.term.after)
  | .terms sum,       c => ((c.terms sum).value, (c.terms sum).after)
  | .expression,      c => (c.expression.value, c.expression.after)

/-- `Evaluates p c v c'`: the part `p` starts in `c`, has the value `v` and ends in `c'`. -/
inductive Evaluates : Part → Calculator → Float → Calculator → Prop where
  | number {c : Calculator} {value : Float} (hk : c.kind = .number value) :
      Evaluates .primary c value c.advance
  | name {c c' : Calculator} {word : String} {value : Float} (hk : c.kind = .name word)
      (hv : Evaluates (.variableOf word) c.advance value c') : Evaluates .primary c value c'
  | negation {c c' : Calculator} {value : Float} (hk : c.kind = .minus)
      (hp : Evaluates .primary c.advance value c') : Evaluates .primary c (-value) c'
  | group {c c' : Calculator} {value : Float} (hk : c.kind = .openParen)
      (he : Evaluates .expression c.advance value c') (hc : c'.kind = .closeParen) :
      Evaluates .primary c value c'.advance
  | unclosed {c c' : Calculator} {value : Float} (hk : c.kind = .openParen)
      (he : Evaluates .expression c.advance value c') (hc : c'.kind ≠ .closeParen) :
      Evaluates .primary c faultValue (c'.report .unclosedParen)
  | missing {c : Calculator} (hk : c.kind.startsPrimary = false) :
      Evaluates .primary c faultValue (c.report .primaryExpected)
  | assignment {c c' : Calculator} {name : String} {value : Float} (hk : c.kind = .assign)
      (he : Evaluates .expression c.advance value c') :
      Evaluates (.variableOf name) c value (c'.store name value)
  | reading {c : Calculator} {name : String} (hk : c.kind ≠ .assign) :
      Evaluates (.variableOf name) c (c.table.value name) (c.touch name)
  | times {c c' c'' : Calculator} {product factor value : Float} (hk : c.kind = .times)
      (hp : Evaluates .primary c.advance factor c')
      (hf : Evaluates (.factors (product * factor)) c' value c'') :
      Evaluates (.factors product) c value c''
  | divide {c c' c'' : Calculator} {product divisor value : Float} (hk : c.kind = .divide)
      (hp : Evaluates .primary c.advance divisor c') (hz : (divisor == 0) = false)
      (hf : Evaluates (.factors (product / divisor)) c' value c'') :
      Evaluates (.factors product) c value c''
  | zeroDivisor {c c' : Calculator} {product divisor : Float} (hk : c.kind = .divide)
      (hp : Evaluates .primary c.advance divisor c') (hz : (divisor == 0) = true) :
      Evaluates (.factors product) c faultValue (c'.report .divideByZero)
  | endOfTerm {c : Calculator} {product : Float} (hk : c.kind.continuesTerm = false) :
      Evaluates (.factors product) c product c
  | term {c c' c'' : Calculator} {first value : Float} (hp : Evaluates .primary c first c')
      (hf : Evaluates (.factors first) c' value c'') : Evaluates .term c value c''
  | plus {c c' c'' : Calculator} {sum summand value : Float} (hk : c.kind = .plus)
      (ht : Evaluates .term c.advance summand c')
      (hs : Evaluates (.terms (sum + summand)) c' value c'') : Evaluates (.terms sum) c value c''
  | minus {c c' c'' : Calculator} {sum summand value : Float} (hk : c.kind = .minus)
      (ht : Evaluates .term c.advance summand c')
      (hs : Evaluates (.terms (sum - summand)) c' value c'') : Evaluates (.terms sum) c value c''
  | endOfSum {c : Calculator} {sum : Float} (hk : c.kind.continuesSum = false) :
      Evaluates (.terms sum) c sum c
  | expression {c c' c'' : Calculator} {first value : Float} (ht : Evaluates .term c first c')
      (hs : Evaluates (.terms first) c' value c'') : Evaluates .expression c value c''

/-! ### The evaluation follows the rules -/

mutual

theorem evaluates_primary (c : Calculator) :
    Evaluates .primary c c.primary.value c.primary.after := by
  rw [primary]
  split
  · exact .number ‹_›
  · rename_i hk
    have hlt := weight_advance_lt (c := c) (by rw [hk]; nofun)
    exact .name hk (evaluates_variableOf _ c.advance)
  · rename_i hk
    have hlt := weight_advance_lt (c := c) (by rw [hk]; nofun)
    exact .negation hk (evaluates_primary c.advance)
  · rename_i hk
    have hlt := weight_advance_lt (c := c) (by rw [hk]; nofun)
    have he := evaluates_expression c.advance
    dsimp only
    split
    · exact .group hk he ‹_›
    · exact .unclosed hk he ‹_›
  · exact .missing (Kind.startsPrimary_eq_false ‹_› ‹_› ‹_› ‹_›)
termination_by 3 * c.weight

theorem evaluates_variableOf (name : String) (c : Calculator) :
    Evaluates (.variableOf name) c (c.variableOf name).value (c.variableOf name).after := by
  rw [variableOf]
  split
  · rename_i hk
    have hlt := weight_advance_lt (c := c) (by rw [hk]; nofun)
    exact .assignment hk (evaluates_expression c.advance)
  · exact .reading ‹_›
termination_by 3 * c.weight

theorem evaluates_factors (product : Float) (c : Calculator) :
    Evaluates (.factors product) c (c.factors product).value (c.factors product).after := by
  rw [factors]
  split
  · rename_i hk
    have hlt := weight_advance_lt (c := c) (by rw [hk]; nofun)
    have hle := c.advance.primary.le
    exact .times hk (evaluates_primary c.advance) (evaluates_factors _ _)
  · rename_i hk
    have hlt := weight_advance_lt (c := c) (by rw [hk]; nofun)
    have hp := evaluates_primary c.advance
    have hle := c.advance.primary.le
    dsimp only
    split
    · exact .zeroDivisor hk hp ‹_›
    · exact .divide hk hp (eq_false_of_ne_true ‹_›) (evaluates_factors _ _)
  · exact .endOfTerm (Kind.continuesTerm_eq_false ‹_› ‹_›)
termination_by 3 * c.weight

theorem evaluates_term (c : Calculator) : Evaluates .term c c.term.value c.term.after := by
  rw [term]
  have hle := c.primary.le
  exact .term (evaluates_primary c) (evaluates_factors _ _)
termination_by 3 * c.weight + 1

theorem evaluates_terms (sum : Float) (c : Calculator) :
    Evaluates (.terms sum) c (c.terms sum).value (c.terms sum).after := by
  rw [terms]
  split
  · rename_i hk
    have hlt := weight_advance_lt (c := c) (by rw [hk]; nofun)
    have hle := c.advance.term.le
    exact .plus hk (evaluates_term c.advance) (evaluates_terms _ _)
  · rename_i hk
    have hlt := weight_advance_lt (c := c) (by rw [hk]; nofun)
    have hle := c.advance.term.le
    exact .minus hk (evaluates_term c.advance) (evaluates_terms _ _)
  · exact .endOfSum (Kind.continuesSum_eq_false ‹_› ‹_›)
termination_by 3 * c.weight

theorem evaluates_expression (c : Calculator) :
    Evaluates .expression c c.expression.value c.expression.after := by
  rw [expression]
  have hle := c.term.le
  exact .expression (evaluates_term c) (evaluates_terms _ _)
termination_by 3 * c.weight + 2

end

theorem evaluates_run : ∀ (p : Part) (c : Calculator), Evaluates p c (p.run c).1 (p.run c).2
  | .primary,         c => evaluates_primary c
  | .variableOf name, c => evaluates_variableOf name c
  | .factors product, c => evaluates_factors product c
  | .term,            c => evaluates_term c
  | .terms sum,       c => evaluates_terms sum c
  | .expression,      c => evaluates_expression c

/-! ### Nothing else follows the rules -/

theorem run_of_evaluates {p : Part} {c c' : Calculator} {value : Float}
    (h : Evaluates p c value c') : p.run c = (value, c') := by
  induction h with
  | number hk | name hk _ ih | negation hk _ ih | missing hk =>
      -- of the branches of the definition, the premise leaves the one of the rule
      simp only [Part.run] at *
      rw [primary]
      split <;> simp_all [Kind.startsPrimary]
  | group hk _ hc ih | unclosed hk _ hc ih =>
      simp only [Part.run] at *
      rw [primary]
      split <;> simp_all
  | assignment hk _ ih | reading hk =>
      simp only [Part.run] at *
      rw [variableOf]
      split <;> simp_all
  | times hk _ _ ihp ihf | divide hk _ hz _ ihp ihf =>
      obtain ⟨rfl, rfl⟩ := Prod.mk.inj ihp
      rw [← ihf, Part.run, factors]
      split <;> simp_all [Part.run]
  | zeroDivisor hk _ hz ihp =>
      obtain ⟨rfl, rfl⟩ := Prod.mk.inj ihp
      rw [Part.run, factors]
      split <;> simp_all
  | endOfTerm hk =>
      rw [Part.run, factors]
      split <;> simp_all [Kind.continuesTerm]
  | plus hk _ _ iht ihs | minus hk _ _ iht ihs =>
      obtain ⟨rfl, rfl⟩ := Prod.mk.inj iht
      rw [← ihs, Part.run, terms]
      split <;> simp_all [Part.run]
  | endOfSum hk =>
      rw [Part.run, terms]
      split <;> simp_all [Kind.continuesSum]
  | term _ _ ihp ihf =>
      obtain ⟨rfl, rfl⟩ := Prod.mk.inj ihp
      rw [← ihf]
      simp only [Part.run, Calculator.term]
  | expression _ _ iht ihs =>
      obtain ⟨rfl, rfl⟩ := Prod.mk.inj iht
      rw [← ihs]
      simp only [Part.run, Calculator.expression]

/-- **The rules are the evaluation**: they relate a part and a calculator to one result, its own. -/
theorem evaluates_iff {p : Part} {c c' : Calculator} {value : Float} :
    Evaluates p c value c' ↔ p.run c = (value, c') :=
  ⟨run_of_evaluates, fun h => by have hr := evaluates_run p c; rwa [h] at hr⟩

theorem evaluate_eq_iff {c c' : Calculator} {value : Float} :
    c.evaluate = (value, c') ↔ Evaluates .expression c value c' :=
  (evaluates_iff (p := .expression)).symm

theorem evaluates_evaluate (c : Calculator) :
    Evaluates .expression c c.evaluate.1 c.evaluate.2 := evaluates_expression c

end Calculator

end DeskCalculator

import DeskCalculator.Calculator.Statement
import DeskCalculator.Proofs.Evaluation.Rules

/-!
# Evaluation — Calculators that read the same names

When does a calculator do what another one does, though the two have different tables?  An evaluation
looks at the kind of the current token, and at the value of a name it reads.  So it is enough that two
calculators agree on these, and that the few steps an evaluation is made of keep them in agreement
(`Correspondence`).  They need not agree on names that do not come up: a name is read only when it was
the current token, and written only when a `=` came behind it.  The evaluation never fetches past a
terminator, so a fetch need only keep the agreement before other tokens.

Then every part of a statement has the same value in both, and ends with both in agreement
(`Correspondence.evaluates`): one case for each rule.
-/

namespace DeskCalculator.Calculator

/-- A relation that the steps of an evaluation keep, between calculators that decide alike; `reads` are
the names that may be read, and `writes` those that may be assigned. -/
structure Correspondence (reads writes : String → Prop) (R : Calculator → Calculator → Prop) :
    Prop where
  kind {c d : Calculator} : R c d → d.kind = c.kind
  named {c d : Calculator} {name : String} : R c d → c.kind = .name name →
    reads name ∧ (c.advance.kind = .assign → writes name)
  value {c d : Calculator} {name : String} : R c d → reads name →
    d.table.value name = c.table.value name
  errors {c d c' d' : Calculator} : R c d → R c' d' →
    (d.errors < d'.errors ↔ c.errors < c'.errors)
  advance {c d : Calculator} : R c d → c.kind ≠ .terminator → R c.advance d.advance
  report {c d : Calculator} : R c d → ∀ problem, R (c.report problem) (d.report problem)
  touch {c d : Calculator} {name : String} : R c d → reads name → R (c.touch name) (d.touch name)
  store {c d : Calculator} {name : String} : R c d → writes name →
    ∀ value, R (c.store name value) (d.store name value)
  evaluated {c d : Calculator} : R c d →
    ∀ value faulted, R (c.note (.evaluated value faulted)) (d.note (.evaluated value faulted))

/-- The part may read and write the name it was told of. -/
def Part.Knows (reads writes : String → Prop) : Part → Calculator → Prop
  | .variableOf name, c => reads name ∧ (c.kind = .assign → writes name)
  | _,                _ => True

namespace Correspondence
variable {reads writes : String → Prop} {R : Calculator → Calculator → Prop}
  (S : Correspondence reads writes R)
include S

theorem advance_of_kind {c d : Calculator} (h : R c d) {k : Kind} (hk : c.kind = k)
    (hn : k.isTerminator = false) : R c.advance d.advance := by
  refine S.advance h fun ht => ?_
  rw [← hk, ht] at hn
  cases hn

/-- **Agreement is kept by every evaluation**, faulty or not. -/
theorem evaluates {p : Part} {c c' : Calculator} {value : Float} (h : Evaluates p c value c') :
    ∀ {d : Calculator}, R c d → p.Knows reads writes c → ∃ d', Evaluates p d value d' ∧ R c' d' := by
  induction h with
  | number hk => exact fun h _ => ⟨_, .number (S.kind h ▸ hk), S.advance_of_kind h hk rfl⟩
  | name hk _ ih =>
      intro d h _
      obtain ⟨d', hv, h'⟩ := ih (S.advance_of_kind h hk rfl) (S.named h hk)
      exact ⟨d', .name (S.kind h ▸ hk) hv, h'⟩
  | negation hk _ ih =>
      intro d h _
      obtain ⟨d', hp, h'⟩ := ih (S.advance_of_kind h hk rfl) trivial
      exact ⟨d', .negation (S.kind h ▸ hk) hp, h'⟩
  | group hk _ hc ih =>
      intro d h _
      obtain ⟨d', he, h'⟩ := ih (S.advance_of_kind h hk rfl) trivial
      exact ⟨_, .group (S.kind h ▸ hk) he (S.kind h' ▸ hc), S.advance_of_kind h' hc rfl⟩
  | unclosed hk _ hc ih =>
      intro d h _
      obtain ⟨d', he, h'⟩ := ih (S.advance_of_kind h hk rfl) trivial
      exact ⟨_, .unclosed (S.kind h ▸ hk) he (S.kind h' ▸ hc), S.report h' _⟩
  | missing hk => exact fun h _ => ⟨_, .missing (S.kind h ▸ hk), S.report h _⟩
  | assignment hk _ ih =>
      intro d h hn
      obtain ⟨d', he, h'⟩ := ih (S.advance_of_kind h hk rfl) trivial
      exact ⟨_, .assignment (S.kind h ▸ hk) he, S.store h' (hn.2 hk) _⟩
  | @reading c name hk =>
      intro d h hn
      refine ⟨d.touch name, ?_, S.touch h hn.1⟩
      rw [← S.value h hn.1]
      exact .reading (S.kind h ▸ hk)
  | times hk _ _ ihp ihf =>
      intro d h _
      obtain ⟨d', hp, h'⟩ := ihp (S.advance_of_kind h hk rfl) trivial
      obtain ⟨d'', hf, h''⟩ := ihf h' trivial
      exact ⟨d'', .times (S.kind h ▸ hk) hp hf, h''⟩
  | divide hk _ hz _ ihp ihf =>
      intro d h _
      obtain ⟨d', hp, h'⟩ := ihp (S.advance_of_kind h hk rfl) trivial
      obtain ⟨d'', hf, h''⟩ := ihf h' trivial
      exact ⟨d'', .divide (S.kind h ▸ hk) hp hz hf, h''⟩
  | zeroDivisor hk _ hz ihp =>
      intro d h _
      obtain ⟨d', hp, h'⟩ := ihp (S.advance_of_kind h hk rfl) trivial
      exact ⟨_, .zeroDivisor (S.kind h ▸ hk) hp hz, S.report h' _⟩
  | endOfTerm hk => exact fun h _ => ⟨_, .endOfTerm (S.kind h ▸ hk), h⟩
  | term _ _ ihp ihf =>
      intro d h _
      obtain ⟨d', hp, h'⟩ := ihp h trivial
      obtain ⟨d'', hf, h''⟩ := ihf h' trivial
      exact ⟨d'', .term hp hf, h''⟩
  | plus hk _ _ iht ihs =>
      intro d h _
      obtain ⟨d', ht, h'⟩ := iht (S.advance_of_kind h hk rfl) trivial
      obtain ⟨d'', hs, h''⟩ := ihs h' trivial
      exact ⟨d'', .plus (S.kind h ▸ hk) ht hs, h''⟩
  | minus hk _ _ iht ihs =>
      intro d h _
      obtain ⟨d', ht, h'⟩ := iht (S.advance_of_kind h hk rfl) trivial
      obtain ⟨d'', hs, h''⟩ := ihs h' trivial
      exact ⟨d'', .minus (S.kind h ▸ hk) ht hs, h''⟩
  | endOfSum hk => exact fun h _ => ⟨_, .endOfSum (S.kind h ▸ hk), h⟩
  | expression _ _ iht ihs =>
      intro d h _
      obtain ⟨d', ht, h'⟩ := iht h trivial
      obtain ⟨d'', hs, h''⟩ := ihs h' trivial
      exact ⟨d'', .expression ht hs, h''⟩

theorem evaluate {c d : Calculator} (h : R c d) :
    ∃ d', d.evaluate = (c.evaluate.1, d') ∧ R c.evaluate.2 d' := by
  obtain ⟨d', he, h'⟩ := S.evaluates (evaluates_evaluate c) h trivial
  exact ⟨d', evaluate_eq_iff.mpr he, h'⟩

theorem evaluateStatement {c d : Calculator} (h : R c d) :
    ∃ d', d.evaluateStatement = (c.evaluateStatement.1, d') ∧ R c.evaluateStatement.2 d' := by
  obtain ⟨d', he, h'⟩ := S.evaluate h
  simp only [Calculator.evaluateStatement, he, decide_eq_decide.mpr (S.errors h h')]
  exact ⟨_, rfl, S.evaluated h' _ _⟩

/-- A statement, once its first token is fetched. -/
theorem statement {c d : Calculator} (h : R c.advance d.advance)
    (hx : d.advance.lexer.exhausted = c.advance.lexer.exhausted) :
    ∃ d', d.statement = (c.statement.1, d') ∧ R c.statement.2 d' := by
  simp only [Calculator.statement, S.kind h, hx]
  split
  · exact ⟨_, rfl, h⟩
  · exact ⟨_, rfl, h⟩
  · exact S.evaluateStatement h

end Correspondence

/-- A correspondence between calculators that come to the end of their inputs together. -/
structure Unison (reads writes : String → Prop) (R : Calculator → Calculator → Prop) : Prop
    extends Correspondence reads writes R where
  fetch {c d : Calculator} : R c d → R c.advance d.advance
  exhausted {c d : Calculator} : R c d → d.lexer.exhausted = c.lexer.exhausted
  advance h _ := fetch h

theorem Unison.next {reads writes : String → Prop} {R : Calculator → Calculator → Prop}
    (U : Unison reads writes R) {c d : Calculator} (h : R c d) :
    ∃ d', d.statement = (c.statement.1, d') ∧ R c.statement.2 d' :=
  U.statement (U.fetch h) (U.exhausted (U.fetch h))

end DeskCalculator.Calculator

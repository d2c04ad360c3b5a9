import DeskCalculator.Proofs.Evaluation.Correspondence
import DeskCalculator.Proofs.Evaluation.Passes

/-!
# Evaluation — Two calculators side by side

Calculators that agree on the kind of the current token, on the table and on the number of errors read
the same value under every name.  If the steps of an evaluation keep that agreement (`Simulation`), it
is a correspondence in which any name may come up (`Simulation.correspondence`).  So a statement comes
to the same in both, and calculators that read the same text go on together to its end (`Lockstep`).
-/

namespace DeskCalculator.Calculator

/-- A relation that the steps of an evaluation keep, between calculators that decide alike. -/
structure Simulation (R : Calculator → Calculator → Prop) : Prop where
  kind {c d : Calculator} : R c d → d.kind = c.kind
  table {c d : Calculator} : R c d → d.table = c.table
  errors {c d : Calculator} : R c d → d.errors = c.errors
  advance {c d : Calculator} : R c d → c.kind ≠ .terminator → R c.advance d.advance
  report {c d : Calculator} : R c d → ∀ problem, R (c.report problem) (d.report problem)
  withTable {c d : Calculator} : R c d → ∀ t, R (c.withTable t) (d.withTable t)
  evaluated {c d : Calculator} : R c d →
    ∀ value faulted, R (c.note (.evaluated value faulted)) (d.note (.evaluated value faulted))

namespace Simulation
variable {R : Calculator → Calculator → Prop} (S : Simulation R)
include S

theorem store {c d : Calculator} (h : R c d) (name : String) (value : Float) :
    R (c.store name value) (d.store name value) := by
  rw [store_eq_withTable, store_eq_withTable, S.table h]
  exact S.withTable h _

theorem touch {c d : Calculator} (h : R c d) (name : String) : R (c.touch name) (d.touch name) := by
  rw [touch_eq_withTable, touch_eq_withTable, S.table h]
  exact S.withTable h _

theorem correspondence : Correspondence (fun _ => True) (fun _ => True) R where
  kind := S.kind
  named _ _ := ⟨trivial, fun _ => trivial⟩
  value h _ := by rw [S.table h]
  errors h h' := by rw [S.errors h, S.errors h']
  advance := S.advance
  report := S.report
  touch h _ := S.touch h _
  store h _ value := S.store h _ value
  evaluated := S.evaluated

/-- A statement, once its first token is fetched. -/
theorem statement {c d : Calculator} (h : R c.advance d.advance)
    (hx : d.advance.lexer.exhausted = c.advance.lexer.exhausted) :
    ∃ d', d.statement = (c.statement.1, d') ∧ R c.statement.2 d' :=
  S.correspondence.statement h hx

end Simulation

/-- A simulation between calculators that read the same text and come to its end together. -/
structure Lockstep (R : Calculator → Calculator → Prop) : Prop extends Simulation R where
  fetch {c d : Calculator} : R c d → R c.advance d.advance
  exhausted {c d : Calculator} : R c d → d.lexer.exhausted = c.lexer.exhausted
  advance h _ := fetch h

theorem Lockstep.unison {R : Calculator → Calculator → Prop} (L : Lockstep R) :
    Unison (fun _ => True) (fun _ => True) R :=
  { L.correspondence with fetch := L.fetch, exhausted := L.exhausted }

end DeskCalculator.Calculator

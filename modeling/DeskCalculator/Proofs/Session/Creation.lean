import DeskCalculator.Proofs.Evaluation.Correspondence
import DeskCalculator.Proofs.Evaluation.Passes
import DeskCalculator.Proofs.Table.Changes
import Mathlib.Logic.Function.Iterate

/-!
# Sessions — Creating a variable is not seen

A missing name reads as zero, and reading it creates it with the value zero.  So whether a name is
there makes no difference to any evaluation: two tables in which every name reads the same
(`Table.ReadsAlike`) stay so, whatever is done to both of them, and calculators that differ in
nothing else (`Unseen`) decide alike at every step (`unison_unseen`).

**Statement by statement** (`statement_of_readsAlike`).  Such calculators have the same answers for any
number of statements, with the same tokens, the same place in the input and the same reports.
-/

namespace DeskCalculator

open Table (Change)

/-- Every name reads the same in both tables, a missing one as zero. -/
def Table.ReadsAlike (t u : Table) : Prop := ∀ name, u.value name = t.value name

theorem Table.ReadsAlike.change {t u : Table} (h : t.ReadsAlike u) (a : Change) :
    (t.change a).ReadsAlike (u.change a) :=
  fun name => value_changes_congr (h name) [a]

namespace Calculator

/-- The calculators differ in their tables only, and every name reads the same in these. -/
structure Unseen (c d : Calculator) : Prop where
  lexer : d.lexer = c.lexer
  journal : d.journal = c.journal
  table : c.table.ReadsAlike d.table

namespace Unseen
variable {c d : Calculator} (h : c.Unseen d)
include h

theorem advance : c.advance.Unseen d.advance where
  lexer := congrArg₂ (fun l j => (Lexer.next l j).1) h.lexer h.journal
  journal := congrArg₂ (fun l j => (Lexer.next l j).2) h.lexer h.journal
  table := h.table

theorem report (problem : Problem) : (c.report problem).Unseen (d.report problem) :=
  ⟨h.lexer, congrArg (·.report problem) h.journal, h.table⟩

theorem note (event : Event) : (c.note event).Unseen (d.note event) :=
  ⟨h.lexer, congrArg (·.note event) h.journal, h.table⟩

theorem change (a : Change) : (c.withTable (c.table.change a)).Unseen
    (d.withTable (d.table.change a)) :=
  ⟨h.lexer, h.journal, h.table.change a⟩

end Unseen

/-- **Calculators in which every name reads the same go on in unison.** -/
theorem unison_unseen : Unison (fun _ => True) (fun _ => True) Unseen where
  kind h := congrArg (·.current.kind) h.lexer
  named _ _ := ⟨trivial, fun _ => trivial⟩
  value h _ := h.table _
  errors h h' := by rw [errors, errors, h.journal, h'.journal]; rfl
  fetch h := h.advance
  report h problem := h.report problem
  touch h _ := h.change (.touch _)
  store h _ value := h.change (.set _ value)
  evaluated h _ _ := h.note _
  exhausted h := by rw [h.lexer]

/-- Calculators in unison are so after any number of statements. -/
theorem Unison.iterate {reads writes : String → Prop} {R : Calculator → Calculator → Prop}
    (U : Unison reads writes R) {c d : Calculator} (h : R c d) (n : Nat) :
    R ((fun e => e.statement.2)^[n] c) ((fun e => e.statement.2)^[n] d) := by
  induction n generalizing c d with
  | zero => exact h
  | succ n ih =>
      obtain ⟨d', hd, h'⟩ := U.next h
      refine ih (d := d.statement.2) ?_
      rw [hd]
      exact h'

/-- **To create a variable has no effect that is seen.**  Two calculators differ in their tables only,
and every name reads the same in both of these, a missing one as zero.  After any number of statements
their next statements come to the same, they have the same current token, the same to read, and the
same journal, so that they have reported the same problems in the same order; and every name still
reads the same in both tables. -/
theorem statement_of_readsAlike (c : Calculator) (u : Table) (h : c.table.ReadsAlike u) (n : Nat) :
    let left := (fun e => e.statement.2)^[n] c
    let right := (fun e => e.statement.2)^[n] (c.withTable u)
    right.statement.1 = left.statement.1 ∧ right.lexer = left.lexer ∧ right.journal = left.journal ∧
      left.table.ReadsAlike right.table := by
  intro left right
  have hu : c.Unseen (c.withTable u) := ⟨rfl, rfl, h⟩
  have hn : left.Unseen right := unison_unseen.iterate hu n
  obtain ⟨d, hd, -⟩ := unison_unseen.next hn
  have hs : right.statement.1 = left.statement.1 := by rw [hd]
  exact ⟨hs, hn.lexer, hn.journal, hn.table⟩

/-- One table has `z` as zero, and the other is to create it with the next statement. -/
theorem statement_of_readsAlike_created :
    let c := ofInput (.ofString "(x=y+1;2/z") .empty (.ofSink .silent)
    let u : Table := ⟨[("z", 0)]⟩
    let left := (fun e => e.statement.2)^[1] c
    let right := (fun e => e.statement.2)^[1] (c.withTable u)
    c.table.ReadsAlike u ∧ left.table.names = ["y", "x"] ∧ right.table.names = ["z", "y", "x"] ∧
      left.statement.1 = .value faultValue ∧ right.statement.1 = .value faultValue ∧
      right.journal = left.journal ∧ left.table.ReadsAlike right.table := by
  intro c u left right
  have h : c.table.ReadsAlike u := by
    intro name
    show (([("z", 0)] : List (String × Float)).lookup name).getD 0 = 0
    rw [List.lookup_cons]
    cases name == "z" <;> rfl
  obtain ⟨hs, -, hj, ht⟩ := statement_of_readsAlike c u h 1
  have hv : left.statement.1 = .value faultValue := by decide +kernel
  exact ⟨h, by decide +kernel, by decide +kernel, hv, hs.trans hv, hj, ht⟩

end Calculator

end DeskCalculator

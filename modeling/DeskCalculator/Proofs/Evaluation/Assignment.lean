import DeskCalculator.Proofs.Evaluation.Rules
import DeskCalculator.Session

/-!
# Evaluation — Assignments

A statement that starts with a name and `=` evaluates the whole expression behind the `=`, stores its
value under the name, and goes on from there as the statement it is: with the factors and the terms
that follow (`evaluate_of_assignment`).  As a rule none follow, because an expression ends at a token
that goes on neither with a term nor with a sum.  The one exception is an expression whose last term
is abandoned: a zero divisor ends its term wherever it stands, and the token behind it may be a `*` or
a `/` (`settles_of_evaluates`).

**The value stored** (`statement_of_assignment`).  So the value of the statement is the value stored,
unless the right-hand side ends with a zero divisor before a `*` or a `/`.  Then what the statement
shows is the value stored taken through the factors that follow (`assignment_not_shown`).
-/

namespace DeskCalculator.Calculator

/-- Where the calculator stands, a term goes on only because a zero divisor has just abandoned one. -/
def Settled (c : Calculator) : Prop :=
  c.kind.continuesTerm = true → ∃ d : Calculator, c = d.report .divideByZero

/-- The part leaves a calculator in which a term goes on only behind a zero divisor; a sum does not go
on behind all of its terms. -/
def Part.Settles : Part → Calculator → Calculator → Prop
  | .primary, _, _ | .variableOf _, _, _ => True
  | .factors _, _, c' | .term, _, c'     => c'.Settled
  | .terms _, c, c'                      => c'.kind.continuesSum = false ∧ (c.Settled → c'.Settled)
  | .expression, _, c'                   => c'.kind.continuesSum = false ∧ c'.Settled

theorem settles_of_evaluates {p : Part} {c c' : Calculator} {value : Float}
    (h : Evaluates p c value c') : p.Settles c c' := by
  induction h with
  | number | name | negation | group | unclosed | missing | assignment | reading => trivial
  | times _ _ _ _ ihf | divide _ _ _ _ _ ihf => exact ihf
  | zeroDivisor => exact fun _ => ⟨_, rfl⟩
  | endOfTerm hk => exact fun hc => absurd (hk.symm.trans hc) nofun
  | term _ _ _ ihf => exact ihf
  | plus _ _ _ iht ihs | minus _ _ _ iht ihs => exact ⟨ihs.1, fun _ => ihs.2 iht⟩
  | endOfSum hk => exact ⟨hk, id⟩
  | expression _ _ iht ihs => exact ⟨ihs.1, ihs.2 iht⟩

/-- No evaluation takes a variable away. -/
theorem isSome_get?_of_evaluates {p : Part} {c c' : Calculator} {value : Float} {name : String}
    (h : Evaluates p c value c') (hn : (c.table.get? name).isSome) :
    (c'.table.get? name).isSome := by
  induction h with
  | number | missing | endOfTerm | endOfSum => exact hn
  | name _ _ ih | negation _ _ ih | group _ _ _ ih | unclosed _ _ _ ih | zeroDivisor _ _ _ ih =>
      exact ih hn
  | @assignment c c' other value _ _ ih =>
      rw [store, Table.get?_set]
      split
      · rfl
      · exact ih hn
  | @reading c other _ =>
      rw [touch, Table.get?_touch]
      split
      · rfl
      · exact hn
  | times _ _ _ ih ih' | divide _ _ _ _ ih ih' | plus _ _ _ ih ih' | minus _ _ _ ih ih' =>
      exact ih' (ih hn)
  | term _ _ ih ih' | expression _ _ ih ih' => exact ih' (ih hn)

/-! ### Where nothing follows -/

theorem factors_of_end {product : Float} {c : Calculator} (hk : c.kind.continuesTerm = false) :
    (c.factors product).value = product ∧ (c.factors product).after = c := by
  have h : Evaluates (.factors product) c product c := .endOfTerm hk
  exact Prod.mk.inj (run_of_evaluates h)

theorem terms_of_end {sum : Float} {c : Calculator} (hk : c.kind.continuesSum = false) :
    (c.terms sum).value = sum ∧ (c.terms sum).after = c := by
  have h : Evaluates (.terms sum) c sum c := .endOfSum hk
  exact Prod.mk.inj (run_of_evaluates h)

/-! ### The statement -/

/-- An expression that starts with an assignment has the value stored, taken through what follows. -/
theorem evaluate_of_assignment {c : Calculator} {name : String} (hn : c.kind = .name name)
    (ha : c.advance.kind = .assign) :
    let right := c.advance.evaluateNext
    let product := (right.2.store name right.1).factors right.1
    let sum := product.after.terms product.value
    c.evaluate = (sum.value, sum.after) := by
  intro right product sum
  have he : Evaluates .expression c.advance.advance right.1 right.2 := evaluates_evaluate _
  exact evaluate_eq_iff.mpr (.expression
    (.term (.name hn (.assignment ha he)) (evaluates_factors _ _)) (evaluates_terms _ _))

theorem statement_of_name {c : Calculator} {name : String} (hn : c.advance.kind = .name name) :
    c.statement = c.advance.evaluateStatement := by
  simp only [statement, hn]

theorem step_of_value {c c' : Calculator} {value : Float} (h : c.statement = (.value value, c'))
    (statements : Nat) (output : Sink) :
    Session.step ⟨statements, c, output⟩ =
      (true, ⟨statements + 1, c', output.println (Double.text value)⟩) := by
  simp only [Session.step, h]

/-- **An assignment shows the value it stored.**  A statement that starts with a name and `=` has a
value, which is printed, and leaves the name with a value.  The two are one value if no `*` and no `/`
follows the right-hand side.  Where one follows, the right-hand side has ended with a zero divisor, and
the value of the statement is the value stored then, taken through the factors and terms behind it. -/
theorem statement_of_assignment {c : Calculator} {name : String}
    (hn : c.advance.kind = .name name) (ha : c.advance.advance.kind = .assign) :
    let right := c.advance.advance.evaluateNext
    let product := (right.2.store name right.1).factors right.1
    let sum := product.after.terms product.value
    c.statement.1 = .value sum.value ∧
      (∀ statements output, Session.step ⟨statements, c, output⟩ =
        (true, ⟨statements + 1, c.statement.2, output.println (Double.text sum.value)⟩)) ∧
      c.statement.2.table = sum.after.table ∧
      (c.statement.2.table.get? name).isSome = true ∧
      (right.2.kind.continuesTerm = false →
        sum.value = right.1 ∧ c.statement.2.table.get? name = some sum.value) ∧
      (right.2.kind.continuesTerm = true → ∃ d : Calculator, right.2 = d.report .divideByZero) := by
  intro right product sum
  have he : c.advance.evaluate = (sum.value, sum.after) := evaluate_of_assignment hn ha
  have hs : c.statement = (.value sum.value, sum.after.note
      (.evaluated sum.value (c.advance.errors < sum.after.errors))) := by
    simp only [statement_of_name hn, evaluateStatement, he]
  have hr : Evaluates .expression c.advance.advance.advance right.1 right.2 := evaluates_evaluate _
  obtain ⟨hsum, hterm⟩ : right.2.kind.continuesSum = false ∧ right.2.Settled := settles_of_evaluates hr
  have hstored : (right.2.store name right.1).table.get? name = some right.1 := by
    rw [store, Table.get?_set, if_pos (beq_self_eq_true name)]
  have hsome : (sum.after.table.get? name).isSome := by
    refine isSome_get?_of_evaluates (evaluates_terms _ _) ?_
    refine isSome_get?_of_evaluates (evaluates_factors _ _) ?_
    rw [hstored]
    rfl
  have ht : c.statement.2.table = sum.after.table := by
    rw [hs]
    rfl
  refine ⟨congrArg Prod.fst hs, fun statements output => ?_, ht, ht ▸ hsome, fun hend => ?_, hterm⟩
  · rw [step_of_value hs, hs]
  · -- neither a factor nor a term follows, so the calculator is still the one that stored the value
    have hp : product.value = right.1 ∧ product.after = right.2.store name right.1 :=
      factors_of_end hend
    have hs : sum.value = product.value ∧ sum.after = product.after :=
      terms_of_end (by rw [hp.2]; exact hsum)
    rw [ht, hs.1, hs.2, hp.1, hp.2]
    exact ⟨rfl, hstored⟩

/-- A sum that goes on behind a zero divisor, and a parenthesis that is not closed. -/
theorem statement_of_assignment_faulty :
    let c := Calculator.ofInput (.ofString "x=6/0+(2") .seeded (.ofSink .silent)
    c.advance.kind = .name "x" ∧ c.advance.advance.kind = .assign ∧
      c.advance.advance.evaluateNext.2.kind.continuesTerm = false ∧ c.statement.2.errors = 2 ∧
      c.statement.1 = .value 2 ∧ c.statement.2.table.get? "x" = some 2 := by
  intro c
  have hn : c.advance.kind = .name "x" := by decide +kernel
  have ha : c.advance.advance.kind = .assign := by decide +kernel
  have hk : c.advance.advance.evaluateNext.2.kind.continuesTerm = false := by decide +kernel
  have hv : c.statement.1 = .value 2 := by decide +kernel
  obtain ⟨hs, -, -, -, hend, -⟩ := statement_of_assignment hn ha
  obtain ⟨-, hg⟩ := hend hk
  have h2 := Statement.value.inj (hs.symm.trans hv)
  exact ⟨hn, ha, hk, by decide +kernel, hv, h2 ▸ hg⟩

/-- With `a=1/0*3` the statement stores one and shows three. -/
theorem assignment_not_shown :
    ¬ ∀ (c : Calculator) (name : String), c.advance.kind = .name name →
      c.advance.advance.kind = .assign →
      ∃ value, c.statement.1 = .value value ∧ c.statement.2.table.get? name = some value := by
  intro h
  obtain ⟨value, hv, hg⟩ := h (.ofInput (.ofString "a=1/0*3") .seeded (.ofSink .silent)) "a"
    (by decide +kernel) (by decide +kernel)
  have h3 : (Calculator.ofInput (.ofString "a=1/0*3") .seeded (.ofSink .silent)).statement.1 =
      .value 3 := by decide +kernel
  have h1 : (Calculator.ofInput (.ofString "a=1/0*3") .seeded (.ofSink .silent)).statement.2.table.get?
      "a" = some 1 := by decide +kernel
  cases Statement.value.inj (h3.symm.trans hv)
  exact absurd (Option.some.inj (h1.symm.trans hg)) (by decide)

end DeskCalculator.Calculator

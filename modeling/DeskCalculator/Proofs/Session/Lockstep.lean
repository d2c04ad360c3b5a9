import DeskCalculator.Proofs.Evaluation.Simulation
import DeskCalculator.Proofs.Journal.Growth
import DeskCalculator.Session

/-!
# Sessions — Two sessions side by side

A session is a finite sequence of statements, the last of which finds the input exhausted
(`Session.induction`).  So calculators in unison carry their sessions along: both sessions print the
same values, each to its own output, and they end with calculators that are still in unison
(`Unison.finish`).  In lockstep, over one output, the outputs are the same too (`Lockstep.finish`).
Whatever a session prints, it adds to what is in its buffer already (`output_finish`).
-/

namespace DeskCalculator

theorem Calculator.weight_lt_of_statement {c c' : Calculator} {st : Statement}
    (h : c.statement = (st, c')) (hn : st ≠ .exhausted) : c'.weight < c.weight := by
  have hw := weight_statement_lt (c := c) (by rwa [h])
  rwa [h] at hw

namespace Session

/-- The session with the outcome of a statement taken in. -/
def after (s : Session) : Statement → Calculator → Session
  | .value result, c         => ⟨s.statements + 1, c, s.output.println (Double.text result)⟩
  | .empty, c | .exhausted, c => { s with calculator := c }

/-- The session at its end. -/
def closed (s : Session) (c : Calculator) : Session :=
  { s with calculator := c.note (.finished s.statements c.errors) }

/-- The session after it has printed some values, each of them that of a statement. -/
def printing (s : Session) (values : List Float) (c : Calculator) : Session :=
  ⟨s.statements + values.length, c, s.output.printlnAll (values.map Double.text)⟩

theorem printing_after (s : Session) (value : Float) (values : List Float) (c d : Calculator) :
    (s.after (.value value) c).printing values d = s.printing (value :: values) d := by
  rw [printing, printing, after, List.length_cons, Nat.add_right_comm, Nat.add_assoc]
  rfl

@[simp] theorem calculator_after (s : Session) (st : Statement) (c : Calculator) :
    (s.after st c).calculator = c := by
  cases st <;> rfl

theorem finish_last {s : Session} {c : Calculator} (h : s.calculator.statement = (.exhausted, c)) :
    s.finish = s.closed c := by
  have hs : s.step = (false, s.closed c) := by
    rw [step, h]
    rfl
  rw [finish]
  split <;> simp_all

theorem finish_next {s : Session} {st : Statement} {c : Calculator}
    (h : s.calculator.statement = (st, c)) (hn : st ≠ .exhausted) :
    s.finish = (s.after st c).finish := by
  have hs : s.step = (true, s.after st c) := by
    rw [step, h]
    cases st with
    | exhausted => exact absurd rfl hn
    | empty | value result => rfl
  rw [finish]
  split <;> simp_all

/-- Of its calculator a session depends on the first statement alone. -/
theorem finish_congr {s t : Session} (h : t.calculator.statement = s.calculator.statement)
    (hn : t.statements = s.statements) (ho : t.output = s.output) : t.finish = s.finish := by
  obtain ⟨n, d, output⟩ := t
  cases hn
  cases ho
  cases hs : s.calculator.statement with
  | mk st c =>
      by_cases hx : st = .exhausted
      · subst hx
        exact (finish_last (h.trans hs)).trans (finish_last hs).symm
      · rw [finish_next hs hx, finish_next (h.trans hs) hx]
        cases st <;> rfl

/-- A session is its last statement, or a statement and the session after it. -/
theorem induction {motive : Session → Prop}
    (last : ∀ s c, s.calculator.statement = (.exhausted, c) → motive s)
    (next : ∀ s st c, s.calculator.statement = (st, c) → st ≠ .exhausted →
      motive (s.after st c) → motive s) (s : Session) : motive s := by
  cases h : s.calculator.statement with
  | mk st c =>
      by_cases hn : st = .exhausted
      · subst hn
        exact last s c h
      · have hw := Calculator.weight_lt_of_statement h hn
        exact next s st c h hn (induction last next (s.after st c))
termination_by s.calculator.weight
decreasing_by rwa [calculator_after]

theorem output_after_eq {s t : Session} (h : t.output = s.output) (st : Statement)
    (c d : Calculator) : (t.after st d).output = (s.after st c).output := by
  cases st with
  | value result => exact congrArg (·.println (Double.text result)) h
  | empty | exhausted => exact h

theorem output_after (s : Session) (st : Statement) (c : Calculator) {text : String}
    (h : s.output = .buffer text) : ∃ more, (s.after st c).output = .buffer (text ++ more) := by
  cases st with
  | value result =>
      refine ⟨Double.text result ++ "\n", ?_⟩
      rw [after, h, ← String.append_assoc]
      rfl
  | empty | exhausted => exact ⟨"", by rw [String.append_empty]; exact h⟩

/-- A session adds to what is printed. -/
theorem output_finish (s : Session) : ∀ {text : String}, s.output = .buffer text →
    ∃ more, s.finish.output = .buffer (text ++ more) := by
  induction s using induction with
  | last s c h =>
      intro text ho
      exact ⟨"", by rw [finish_last h, String.append_empty]; exact ho⟩
  | next s st c h hn ih =>
      intro text ho
      obtain ⟨more, ha⟩ := output_after s st c ho
      obtain ⟨rest, hf⟩ := ih ha
      exact ⟨more ++ rest, by rw [finish_next h hn, hf, String.append_assoc]⟩

end Session

namespace Calculator

/-- Only a terminator at the end of the input ends the session. -/
theorem exhausted_of_statement {c c' : Calculator} (h : c.statement = (.exhausted, c')) :
    c'.lexer.exhausted = true ∧ c' = c.advance := by
  simp only [statement] at h
  split at h
  · split at h
    · rename_i hx
      cases h
      exact ⟨hx, rfl⟩
    · cases h
  · cases h
  · cases h

/-- **Calculators in unison print the same values.** -/
theorem Unison.finish {reads writes : String → Prop} {R : Calculator → Calculator → Prop}
    (U : Unison reads writes R) (s : Session) :
    ∀ {t : Session}, R s.calculator t.calculator →
      ∃ values c d, R c d ∧ c.lexer.exhausted = true ∧
        s.finish = (s.printing values c).closed c ∧ t.finish = (t.printing values d).closed d := by
  induction s using Session.induction with
  | last s c h =>
      intro t hr
      obtain ⟨d, hd, hr'⟩ := U.next hr
      rw [h] at hd hr'
      exact ⟨[], c, d, hr', (exhausted_of_statement h).1, Session.finish_last h,
        Session.finish_last hd⟩
  | next s st c h hn ih =>
      intro t hr
      obtain ⟨d, hd, hr'⟩ := U.next hr
      rw [h] at hd hr'
      rw [Session.finish_next h hn, Session.finish_next hd hn]
      cases st with
      | exhausted => exact absurd rfl hn
      | empty => exact ih hr'
      | value result =>
          -- one value more on either side, and the same one printed
          obtain ⟨values, c', d', hr'', hx, hs, ht⟩ := ih (t := t.after (.value result) d) hr'
          refine ⟨result :: values, c', d', hr'', hx, ?_, ?_⟩
          · rw [hs, Session.printing_after]
          · rw [ht, Session.printing_after]

/-- **Calculators in lockstep have the same session.** -/
theorem Lockstep.finish {R : Calculator → Calculator → Prop} (L : Lockstep R) (s : Session)
    {t : Session} (hr : R s.calculator t.calculator) (ho : t.output = s.output) :
    ∃ n c d output, R c d ∧ c.lexer.exhausted = true ∧
      s.finish = Session.closed ⟨s.statements + n, c, output⟩ c ∧
      t.finish = Session.closed ⟨t.statements + n, d, output⟩ d := by
  obtain ⟨values, c, d, hr', hx, hs, ht⟩ := L.unison.finish s hr
  rw [Session.printing, ho] at ht
  exact ⟨values.length, c, d, _, hr', hx, hs, ht⟩

end Calculator

theorem run_of_finish {i : Input} {output diagnostics : Sink} {n : Nat} {c : Calculator}
    {printed : Sink}
    (h : Session.finish ⟨0, .ofInput i .seeded (.ofSink diagnostics), output⟩ =
      Session.closed ⟨n, c, printed⟩ c) :
    run i output diagnostics = ⟨printed, c.journal.note (.finished n c.errors), c.lexer.input⟩ := by
  simp only [run, calculate, h]
  rfl

theorem runCaptured_of_finish {i : Input} {n : Nat} {c : Calculator} {output : Sink}
    (h : Session.finish ⟨0, .ofInput i .seeded (.ofSink (.buffer "")), .buffer ""⟩ =
      Session.closed ⟨n, c, output⟩ c) :
    runCaptured i = ⟨output, c.journal.note (.finished n c.errors), c.lexer.input⟩ :=
  run_of_finish h

end DeskCalculator

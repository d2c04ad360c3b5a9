import DeskCalculator.Proofs.Evaluation.Beside
import DeskCalculator.Proofs.Session.Lockstep

/-!
# Sessions — Separators isolate

A separator divides a text into two that have nothing to do with one another: a session over the
whole text is a session over what stands before the separator, followed by one over what stands
behind it, with the same variables and the same journal (`calculate_separated`).  A fault before the
separator, an open parenthesis or a dangling operator, does not reach behind it.

The session over the whole text and the one over its front go side by side up to the separator.
There the one over the front is exhausted, and the other has a terminator, which no evaluation
fetches past; when it comes to its next statement it has the text behind the separator to come
(`finish_of_apart`).  From there on it is in lockstep with the second session.
-/

namespace DeskCalculator

open Lexer (Before Past Apart Together FetchAlike)

namespace Calculator

theorem statement_of_atEnd {c : Calculator} (hk : c.advance.kind = .terminator)
    (hx : c.advance.lexer.exhausted = true) : c.statement = (.exhausted, c.advance) := by
  simp only [statement, hk, hx, if_true]

theorem statement_of_terminator {c : Calculator} (hk : c.advance.kind = .terminator)
    (hx : c.advance.lexer.exhausted = false) : c.statement = (.empty, c.advance) := by
  simp only [statement, hk, hx, Bool.false_eq_true, if_false]

variable {sep : Char} {behind : List Char} {before before' : List Kind}

theorem simulation_apart (hsep : Separates sep) :
    Simulation (Beside (Apart sep behind) before before') :=
  simulation_beside fun h hk => by
    obtain h | h := h
    · exact Lexer.fetches_apart hsep h
    · exact absurd h.1 hk

theorem lockstep_together : Lockstep (Beside Together before before') :=
  lockstep_beside Lexer.fetches_together Together.exhausted_eq

end Calculator

open Calculator

/-- What the calculators over a whole text, `c`, and over its front, `d`, have come to at the
separator: `c` is to go on with what stands behind, and `d` is exhausted, perhaps with one more
fetch. -/
structure Joint (behind : List Char) (c d : Calculator) : Prop where
  kind : c.kind = .terminator
  kind' : d.kind = .terminator
  table : d.table = c.table
  lexer : c.lexer.Spells behind
  journal : ∃ more, (more = [] ∨ more = [.terminator]) ∧
    Journal.Alike c.journal.kinds (c.journal.kinds ++ more) c.journal d.journal

variable {sep : Char} {behind : List Char}

theorem joint_of_past {c d : Calculator} (h : Beside (Apart sep behind) [] [] c d)
    (hp : Past behind c.lexer d.lexer) : Joint behind c d where
  kind := hp.1
  kind' := h.kind.trans hp.1
  table := h.table
  lexer := hp.2.1
  journal := ⟨[], .inl rfl, by
    rw [List.append_nil]
    exact h.journal.rebase⟩

/-- An exhausted calculator fetches one more terminator. -/
theorem joint_of_past_advance {c d : Calculator} (h : Beside (Apart sep behind) [] [] c d)
    (hp : Past behind c.lexer d.lexer) :
    d.statement = (.exhausted, d.advance) ∧ Joint behind c d.advance := by
  obtain ⟨l', ⟨hn, hk⟩, ha⟩ := Lexer.fetches_of_atEnd hp.2.2 d.journal
  have hd : d.advance = ⟨l', d.table, d.journal.note (.fetched l'.current)⟩ := by
    simp only [Calculator.advance, hn]
    rfl
  have hj := h.journal.rebase
  obtain ⟨more, hc, hd'⟩ := hj.kinds
  refine ⟨statement_of_atEnd (by rw [hd]; exact hk) (by rw [hd]; exact ha.1), ?_⟩
  rw [hd]
  refine ⟨hp.1, hk, h.table, hp.2.1, [.terminator], .inr rfl, hj.errors, hj.last, hj.sink, ?_, ?_⟩
  · rw [Journal.account_note, hj.account]
    exact List.append_nil _
  · obtain rfl := List.self_eq_append_right.mp hc
    refine ⟨[], hc, ?_⟩
    rw [Journal.kinds_note, hd', Event.kinds, hk]
    simp

/-- A session over a whole text and one over its front go side by side up to the separator. -/
theorem finish_of_apart (hsep : Separates sep) {s t : Session}
    (h : Beside (Apart sep behind) [] [] s.calculator t.calculator) (ho : t.output = s.output) :
    ∃ s' d n, s.finish = Session.finish s' ∧ t.finish = Session.closed ⟨n, d, s'.output⟩ d ∧
      Joint behind s'.calculator d := by
  obtain hb | hp := h.lexer
  · have ha := h.advance (Lexer.fetches_apart hsep hb)
    obtain ⟨text, hl, hm⟩ | hp := ha.lexer
    · -- neither is at the separator after its next token, so both evaluate the same statement
      obtain ⟨d, hd, hr⟩ := (simulation_apart hsep).statement ha (hm.1.trans hl.1.symm)
      have hn : s.calculator.statement.1 ≠ .exhausted := by
        intro hx
        rw [hx] at hd
        obtain ⟨hx', rfl⟩ := exhausted_of_statement hd
        rw [hm.1] at hx'
        cases hx'
      have hw := weight_lt_of_statement hd hn
      rw [Session.finish_next (Prod.eta _).symm hn, Session.finish_next hd hn]
      exact finish_of_apart hsep (t := t.after _ d) (by simpa using hr)
        (Session.output_after_eq ho _ _ _)
    · -- the next token of `s` is the separator, an empty statement, and that of `t` is the end
      have hk := ha.kind.trans hp.1
      have hc := statement_of_terminator hp.1 hp.2.1.1
      have hd := statement_of_atEnd hk hp.2.2.1
      refine ⟨s.after .empty s.calculator.advance, t.calculator.advance, t.statements,
        Session.finish_next hc nofun, ?_, joint_of_past ha hp⟩
      rw [Session.finish_last hd, Session.after, ← ho]
      rfl
  · -- the last statement of `t` has come to the end already, and that of `s` to the separator
    obtain ⟨hd, hj⟩ := joint_of_past_advance h hp
    refine ⟨s, t.calculator.advance, t.statements, rfl, ?_, hj⟩
    rw [Session.finish_last hd, ← ho]
    rfl
termination_by t.calculator.weight

/-- With the text behind the separator for its next input, the second calculator is beside the
first. -/
theorem beside_of_joint {c d : Calculator} {b : String} (h : Joint b.toList c d) (n : Nat) :
    ∃ more, (more = [] ∨ more = [.terminator]) ∧
      (d.note (.finished n d.errors)).journal.kinds = c.journal.kinds ++ more ∧
      Beside Together c.journal.kinds (c.journal.kinds ++ more) c
        ((d.note (.finished n d.errors)).setInput (.ofString b)) := by
  obtain ⟨more, hm, hj⟩ := h.journal
  obtain ⟨rest, hc, hd⟩ := hj.kinds
  have hk : (d.note (.finished n d.errors)).journal.kinds = d.journal.kinds :=
    (Journal.kinds_note _ _).trans (List.append_nil _)
  have ha : (d.note (.finished n d.errors)).journal.account = d.journal.account :=
    (Journal.account_note _ _).trans (List.append_nil _)
  obtain rfl := List.self_eq_append_right.mp hc
  refine ⟨more, hm, by rw [hk, hd, List.append_nil], h.kind'.trans h.kind.symm, h.table,
    ⟨hj.errors, hj.last, hj.sink, ha.trans hj.account, [], hc, hk.trans hd⟩,
    .inl ⟨_, h.lexer, Lexer.spells_setInput d.lexer b⟩⟩

/-- The sessions over the whole text `i`, over its front `i'`, and then over `b`. -/
theorem finish_separated (hsep : Separates sep) {i i' : Input} {b : String}
    (hb : Before sep b.toList (.ofInput i) (.ofInput i')) (table : Table) (journal : Journal)
    (output : Sink) :
    ∃ before more n m k c d e output' output'', (more = [] ∨ more = [.terminator]) ∧
      e.journal.kinds = before ++ more ∧ Beside Together before (before ++ more) c d ∧
      Session.finish ⟨0, .ofInput i' table journal, output⟩ = ⟨k, e, output''⟩ ∧
      Session.finish ⟨0, .ofInput i table journal, output⟩ = Session.closed ⟨n, c, output'⟩ c ∧
      Session.finish ⟨0, e.setInput (.ofString b), output''⟩ = Session.closed ⟨m, d, output'⟩ d := by
  have ha : Apart sep b.toList (.ofInput i) (.ofInput i') := .inl hb
  obtain ⟨s, d, n, hw, hf, hj⟩ := finish_of_apart hsep
    (s := ⟨0, .ofInput i table journal, output⟩) (t := ⟨0, .ofInput i' table journal, output⟩)
    (beside_ofInput ha table journal) rfl
  obtain ⟨more, hm, hk, hr⟩ := beside_of_joint hj n
  obtain ⟨m, c', d', output', hr', -, hs, ht⟩ := lockstep_together.finish s
    (t := ⟨0, (d.note (.finished n d.errors)).setInput (.ofString b), s.output⟩) hr rfl
  exact ⟨_, more, _, _, _, c', d', _, output', _, hm, hk, hr', hf, hw.trans hs, ht⟩

theorem calculate_eq {c c' : Calculator} {output output' : Sink} {n : Nat}
    (h : Session.finish ⟨0, c, output⟩ = ⟨n, c', output'⟩) : calculate c output = (c', output') := by
  rw [calculate, h]

theorem output_runSource {source : String} {n : Nat} {c : Calculator} {output : Sink}
    (h : Session.finish ⟨0, .ofInput (.ofString source) .seeded (.ofSink (.buffer "")),
      .buffer ""⟩ = ⟨n, c, output⟩) : (runSource source).output = output.captured := by
  rw [runSource, runCaptured, run, calculate_eq h]
  rfl

/-- The results for the text before a separator come first. -/
theorem output_separated (hsep : Separates sep) (a b : String) :
    ∃ rest, (runSource (a ++ .singleton sep ++ b)).output = (runSource a).output ++ rest := by
  obtain ⟨-, -, n, m, k, c, d, e, output, output', -, -, -, hf, hw, hs⟩ :=
    finish_separated hsep (before_ofString sep a b) .seeded (.ofSink (.buffer "")) (.buffer "")
  obtain ⟨text, ht⟩ := Session.output_finish ⟨0, .ofInput (.ofString a) .seeded
    (.ofSink (.buffer "")), .buffer ""⟩ rfl
  rw [hf] at ht
  obtain ⟨rest, hr⟩ := Session.output_finish ⟨0, e.setInput (.ofString b), output'⟩ ht
  rw [hs] at hr
  refine ⟨rest, ?_⟩
  rw [output_runSource hw, output_runSource hf, show output' = _ from ht, show output = _ from hr]
  rfl

/-- **Separators isolate.**  A session over `a`, a separator and `b` prints and reports the same as a
session over `a` followed by one over `b`, and leaves the same variables.  Behind the tokens of `a`
and the separator, and one more terminator at the end of `a` at most, it fetches the same tokens. -/
theorem calculate_separated (hsep : Separates sep) (a b : String) (table : Table)
    (journal : Journal) (output : Sink) :
    let whole := calculate (.ofInput (.ofString (a ++ .singleton sep ++ b)) table journal) output
    let first := calculate (.ofInput (.ofString a) table journal) output
    let second := calculate (first.1.setInput (.ofString b)) first.2
    whole.2 = second.2 ∧ whole.1.journal.account = second.1.journal.account ∧
      whole.1.journal.values = second.1.journal.values ∧
      whole.1.journal.problems = second.1.journal.problems ∧
      whole.1.errors = second.1.errors ∧ whole.1.journal.last = second.1.journal.last ∧
      whole.1.journal.sink = second.1.journal.sink ∧ whole.1.table = second.1.table ∧
      (∃ before more, whole.1.journal.kinds = before ++ more ∧
        second.1.journal.kinds = first.1.journal.kinds ++ more ∧
        (first.1.journal.kinds = before ∨ first.1.journal.kinds = before ++ [.terminator])) ∧
      ∃ rest, (runSource (a ++ .singleton sep ++ b)).output = (runSource a).output ++ rest := by
  intro whole first second
  obtain ⟨before, more, n, m, k, c, d, e, output', output'', hm, hk, hr, hf, hw, hs⟩ :=
    finish_separated hsep (before_ofString sep a b) table journal output
  have hw : whole = (c.note (.finished n c.errors), output') := calculate_eq hw
  have hf : first = (e, output'') := calculate_eq hf
  have hs : second = (d.note (.finished m d.errors), output') := by
    show calculate (first.1.setInput (.ofString b)) first.2 = _
    rw [hf]
    exact calculate_eq hs
  have hj : Journal.Alike before (before ++ more) (c.note (.finished n c.errors)).journal
      (d.note (.finished m d.errors)).journal := hr.journal.note rfl rfl
  obtain ⟨rest, hc, hd⟩ := hj.kinds
  rw [hw, hf, hs]
  refine ⟨rfl, hj.account.symm, hj.values.symm, hj.problems.symm, hj.errors.symm, hj.last.symm,
    hj.sink.symm, hr.table.symm, ⟨before, rest, hc, ?_, ?_⟩, output_separated hsep a b⟩
  · rw [hd, hk]
  · rcases hm with rfl | rfl
    · exact .inl (hk.trans (List.append_nil before))
    · exact .inr hk

theorem calculate_separated_unclosed :
    let start (source : String) := Calculator.ofInput (.ofString source) .seeded (.ofSink .silent)
    let whole := calculate (start ("(x=1+" ++ .singleton ';' ++ "x")) (.buffer "")
    let first := calculate (start "(x=1+") (.buffer "")
    let second := calculate (first.1.setInput (.ofString "x")) first.2
    Separates ';' ∧ whole.2 = second.2 ∧ whole.2 = .buffer "1\n2\n" ∧
      whole.1.journal.problems = second.1.journal.problems ∧
      second.1.journal.problems = [.primaryExpected, .unclosedParen] ∧
      whole.1.table = second.1.table := by
  intro start whole first second
  have hs : Separates ';' := .inr rfl
  obtain ⟨ho, -, -, hp, -, -, -, ht, -⟩ :=
    calculate_separated hs "(x=1+" "x" .seeded (.ofSink .silent) (.buffer "")
  exact ⟨hs, ho, by decide +kernel, hp, by decide +kernel, ht⟩

end DeskCalculator

import DeskCalculator.CommandLine
import DeskCalculator.Proofs.Lexer.Tokens
import DeskCalculator.Proofs.Session.Layout

/-!
# Sessions — What the command line asks for

A run over buffers that hold something already writes behind it, and is otherwise the run over empty
buffers (`run_behind`): the calculators are in lockstep, with more in front of the diagnostics of the
one.  A blank in front of a text is a new layout of it, so the text is evaluated as it is
(`runSource_blank`).

**The command line is routed by its length** (`execute_routes`).  Without an argument the standard input
is evaluated; a single one is the text to evaluate, `--help` and `--version` apart, and with a blank in
front these too; more than one are refused.  Only in the first case is anything read from the standard
input.
-/

namespace DeskCalculator

/-! ### Buffers that are not empty -/

/-- The outcome in buffers that hold `results` and `diagnostics` already. -/
def Outcome.behind (o : Outcome) (results diagnostics : String) : Outcome :=
  ⟨results ++ o.output, diagnostics ++ o.diagnostics, o.errors⟩

namespace Calculator

/-- The second calculator is the first one with `text` in front of its diagnostics. -/
structure Behind (text : String) (c d : Calculator) : Prop where
  lexer : d.lexer = c.lexer
  table : d.table = c.table
  errors : d.errors = c.errors
  sink : ∃ written, c.journal.sink = .buffer written ∧ d.journal.sink = .buffer (text ++ written)

namespace Behind
variable {text : String} {c d : Calculator} (h : Behind text c d)
include h

/-- What both journals gain is printed in both. -/
theorem of_gains {c' d' : Calculator} {problems : List Problem} (hl : d'.lexer = c'.lexer)
    (ht : d'.table = c'.table) (hc : c.journal.Gains problems c'.journal)
    (hd : d.journal.Gains problems d'.journal) : Behind text c' d' where
  lexer := hl
  table := ht
  errors := by
    calc d'.journal.errors = d.errors + problems.length := hd.errors_eq
      _ = c.errors + problems.length := by rw [h.errors]
      _ = c'.journal.errors := hc.errors_eq.symm
  sink := by
    obtain ⟨written, hw, hw'⟩ := h.sink
    refine ⟨written ++ unlines (problems.map Problem.line), ?_, ?_⟩
    · rw [hc.sink_eq, hw, Sink.printlnAll_buffer]
    · rw [hd.sink_eq, hw', Sink.printlnAll_buffer, String.append_assoc]

theorem advance : Behind text c.advance d.advance := by
  have hl : d.advance.lexer = c.advance.lexer := by
    calc (d.lexer.next d.journal).1
        = (c.lexer.next d.journal).1 := by rw [h.lexer]
      _ = (c.lexer.next c.journal).1 := Lexer.next_fst _ _ _
  have hk : d.advance.kind = c.advance.kind := congrArg (fun l : Lexer => l.current.kind) hl
  exact h.of_gains hl h.table c.gains_advance (hk ▸ d.gains_advance)

end Behind

theorem lockstep_behind (text : String) : Lockstep (Behind text) where
  kind h := congrArg (fun l : Lexer => l.current.kind) h.lexer
  table h := h.table
  errors h := h.errors
  fetch h := h.advance
  exhausted h := congrArg Lexer.exhausted h.lexer
  report {c d} h problem := h.of_gains h.lexer h.table
    (Journal.Grows.of_report c.journal problem).gains (Journal.Grows.of_report d.journal problem).gains
  withTable h _ := ⟨h.lexer, rfl, h.errors, h.sink⟩
  evaluated h _ _ := ⟨h.lexer, h.table, h.errors, h.sink⟩

end Calculator

/-- A run writes behind what its buffers hold. -/
theorem run_behind (input : Input) (results diagnostics : String) :
    (run input (.buffer results) (.buffer diagnostics)).outcome =
        (runCaptured input).outcome.behind results diagnostics ∧
      (run input (.buffer results) (.buffer diagnostics)).input = (runCaptured input).input := by
  have hr : Calculator.Behind diagnostics (.ofInput input .seeded (.ofSink (.buffer "")))
      (.ofInput input .seeded (.ofSink (.buffer diagnostics))) :=
    ⟨rfl, rfl, rfl, "", rfl, by rw [String.append_empty]; rfl⟩
  obtain ⟨values, c, d, hb, -, hf, hf'⟩ := (Calculator.lockstep_behind diagnostics).unison.finish
    (s := ⟨0, .ofInput input .seeded (.ofSink (.buffer "")), .buffer ""⟩)
    (t := ⟨0, .ofInput input .seeded (.ofSink (.buffer diagnostics)), .buffer results⟩) hr
  obtain ⟨written, hw, hw'⟩ := hb.sink
  rw [run_of_finish hf', runCaptured_of_finish hf]
  simp [Run.outcome, Outcome.behind, Sink.printlnAll_buffer, Sink.captured, Journal.note, hw, hw',
    hb.lexer, show d.journal.errors = c.journal.errors from hb.errors]

/-! ### A blank in front -/

/-- A blank in front of a text is without effect. -/
theorem runSource_blank {blank : Char} (h : isBlank blank = true) (source : String) :
    runSource (String.singleton blank ++ source) = runSource source := by
  obtain ⟨tokens, hr⟩ := exists_relaid 1 [] source.toList
  have ht : (String.singleton blank ++ source).toList = blank :: source.toList := by simp
  exact outcome_of_fetchAlike Lexer.fetches_reads Lexer.Reads.exhausted_eq
    (.inl ⟨_, _, _, _, _, ht ▸ hr.insert h, Lexer.spells_ofInput source, Lexer.spells_ofInput _⟩)

/-- A text with a blank in front is none of the options. -/
theorem ne_option_of_blank {blank : Char} (h : isBlank blank = true) (source option : String)
    (ho : option.toList.head? = some '-') : String.singleton blank ++ source ≠ option := by
  rintro rfl
  have hb : blank = '-' := by simpa using ho
  subst hb
  cases h

namespace CommandLine

theorem execute_expression {source : String} (hh : source ≠ "--help") (hv : source ≠ "--version")
    (stdin : Input) (output diagnostics : Sink) :
    execute [source] stdin output diagnostics =
      { run (.ofString source) output diagnostics with input := stdin } := by
  simp only [execute, parse, if_neg hh, if_neg hv]

/-- A text that is evaluated has its outcome written behind what the buffers hold. -/
theorem outcome_execute_expression {source : String} (hh : source ≠ "--help")
    (hv : source ≠ "--version") (stdin : Input) (results diagnostics : String) :
    (execute [source] stdin (.buffer results) (.buffer diagnostics)).outcome =
        (runSource source).behind results diagnostics ∧
      (execute [source] stdin (.buffer results) (.buffer diagnostics)).input = stdin := by
  rw [execute_expression hh hv]
  exact ⟨(run_behind _ _ _).1, rfl⟩

/-- **The command line is routed by its length.**  Whatever the buffers hold already, the results and
the diagnostics are written behind it. -/
theorem execute_routes (stdin : Input) (results diagnostics : String) :
    let outcome := fun arguments =>
      (execute arguments stdin (.buffer results) (.buffer diagnostics)).outcome
    let input := fun arguments =>
      (execute arguments stdin (.buffer results) (.buffer diagnostics)).input
    (outcome [] = (runCaptured stdin).outcome.behind results diagnostics ∧
      input [] = (runCaptured stdin).input) ∧
    (∀ source, source ≠ "--help" → source ≠ "--version" →
      outcome [source] = (runSource source).behind results diagnostics ∧ input [source] = stdin) ∧
    (∀ arguments : List String, 2 ≤ arguments.length →
      outcome arguments =
        (Outcome.mk "" "error: too many arguments\n" 1).behind results diagnostics ∧
      input arguments = stdin) ∧
    (∀ (blank : Char) (source : String), isBlank blank = true →
      outcome [String.singleton blank ++ source] =
        (runSource source).behind results diagnostics ∧
      input [String.singleton blank ++ source] = stdin) := by
  intro outcome input
  refine ⟨run_behind stdin results diagnostics, fun source hh hv => ?_, fun arguments hl => ?_,
    fun blank source hb => ?_⟩
  · exact outcome_execute_expression hh hv stdin results diagnostics
  · obtain ⟨first, second, rest, rfl⟩ : ∃ first second rest, arguments = first :: second :: rest := by
      match arguments, hl with
      | first :: second :: rest, _ => exact ⟨first, second, rest, rfl⟩
    refine ⟨?_, rfl⟩
    simp [outcome, execute, parse, Run.outcome, Outcome.behind, Journal.report, Journal.println,
      Journal.ofSink, Sink.println, Sink.captured, Problem.line, Problem.message,
      String.append_assoc]
  · have ho := outcome_execute_expression (ne_option_of_blank hb source "--help" (by decide))
      (ne_option_of_blank hb source "--version" (by decide)) stdin results diagnostics
    rw [runSource_blank hb] at ho
    exact ho

/-- Behind a blank an option is an expression: a variable, negated twice. -/
example : (execute [" --help"] .empty (.buffer "") (.buffer "")).outcome = ⟨"0\n", "", 0⟩ := by
  decide +kernel

end CommandLine

end DeskCalculator

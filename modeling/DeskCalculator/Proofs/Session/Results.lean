import DeskCalculator.Proofs.Decimal.Sign
import DeskCalculator.Proofs.Lexer.Denotation
import DeskCalculator.Proofs.Session.Chronicle
import DeskCalculator.Proofs.Session.Separators

/-!
# Sessions — Results as input

What a session prints is a text that a session reads.  A printed line is a numeral, perhaps with a
minus in front of it (`Double.Shows`); the newline behind it ends the numeral and the statement.  So a
line of a finite value is one statement that has this value (`statement_of_line`), and lines of finite
values are a session that prints them again and has nothing to report (`finish_of_lines`).

**A fixed point** (`runSource_output`).  If no value a run prints is infinite or undefined, a run over
its results, whatever its input was and however faulty, prints the same results and reports nothing.
-/

namespace DeskCalculator

namespace Calculator

/-! ### A lexeme at the front of the text -/

/-- From `c` to `c'` nothing is reported, and there `rest` is still to come. -/
structure Through (c : Calculator) (rest : List Char) (c' : Calculator) : Prop where
  lexer : c'.lexer.Spells rest
  journal : c.journal.Gains [] c'.journal

/-- The next token is of `kind`, and leaves `rest` to come. -/
structure Sees (c : Calculator) (kind : Kind) (rest : List Char) : Prop where
  kind : c.advance.kind = kind
  through : c.Through rest c.advance

variable {c c' c'' : Calculator} {rest : List Char}

theorem Through.trans {before : List Char} (h : c.Through before c') (h' : c'.Through rest c'') :
    c.Through rest c'' := ⟨h'.lexer, h.journal.trans h'.journal⟩

theorem Through.note (h : c.Through rest c') (value : Float) (faulted : Bool) :
    c.Through rest (c'.note (.evaluated value faulted)) := ⟨h.lexer, h.journal.note rfl⟩

/-- A fetch that is known is the step of the calculator. -/
theorem advance_of_fetches {kind : Kind} {l : Lexer} (h : c.lexer.Fetches c.journal kind l) :
    c.advance.kind = kind ∧ c.advance.lexer = l ∧
      c.journal.Gains kind.problems c.advance.journal := by
  have hl : c.advance.lexer = l := congrArg Prod.fst h.1
  have hk : c.advance.kind = kind := (congrArg (·.current.kind) hl).trans h.2
  have hg : c.journal.Gains c.advance.kind.problems c.advance.journal :=
    Lexer.gains_next c.lexer c.journal
  exact ⟨hk, hl, hk ▸ hg⟩

theorem sees_of_startingWith {first : Char} {text : List Char} {kind : Kind}
    (h : c.lexer.Spells (first :: (text ++ rest))) (hb : isBlank first = false)
    (hl : Lexeme.startingWith first (text ++ rest) = ⟨kind, first :: text⟩)
    (hk : kind.problems = []) : c.Sees kind rest := by
  obtain ⟨l, hf, hs⟩ := Lexer.fetches_of_cons h (List.dropWhile_cons_of_neg (by simp [hb])) c.journal
  rw [hl] at hf
  rw [hl, ← List.cons_append, List.drop_left] at hs
  obtain ⟨hc, rfl, hg⟩ := advance_of_fetches hf
  exact ⟨hc, hs, hk ▸ hg⟩

/-- A lexeme of one character. -/
theorem sees_of_single {first : Char} {kind : Kind} (h : c.lexer.Spells (first :: rest))
    (hb : isBlank first = false) (hl : Lexeme.startingWith first rest = ⟨kind, [first]⟩)
    (hk : kind.problems = []) : c.Sees kind rest := by
  rw [← List.nil_append rest] at h hl
  exact sees_of_startingWith h hb hl hk

theorem sees_newline (h : c.lexer.Spells ('\n' :: rest)) : c.Sees .terminator rest :=
  sees_of_single h rfl (Separates.startingWith (.inl rfl) rest) rfl

theorem sees_minus (h : c.lexer.Spells ('-' :: rest)) : c.Sees .minus rest :=
  sees_of_single h rfl rfl rfl

/-- A numeral ends where the line does. -/
theorem sees_numeral {n : Numeral} (hn : n.Written) (h : c.lexer.Spells (n.text ++ '\n' :: rest)) :
    c.Sees (.number n.value) ('\n' :: rest) := by
  obtain ⟨d, hm, -⟩ := hn.exists_digit
  obtain ⟨first, text, ht⟩ := List.exists_cons_of_ne_nil (List.ne_nil_of_mem hm)
  have hd : Denotes [] (first :: text) (.number n.value) :=
    .number (hn.head_text ht) (ht ▸ hn.exists_digit) hn ht nofun
  rw [ht, List.cons_append] at h
  refine sees_of_startingWith h (hd.not_blank first List.mem_cons_self) ?_ rfl
  rw [Lexeme.startingWith_delimited (by decide), hd.startingWith]

/-! ### A line -/

/-- A primary on its own, up to the end of its line. -/
theorem evaluate_of_lone {value : Float} (hp : Evaluates .primary c value c')
    (hk : c'.kind = .terminator) : c.evaluate = (value, c') :=
  evaluate_eq_iff.mpr (.expression (.term hp (.endOfTerm (by rw [hk]; rfl)))
    (.endOfSum (by rw [hk]; rfl)))

/-- The numeral of a line and its newline. -/
theorem evaluates_numeral {n : Numeral} (hn : n.Written)
    (h : c.lexer.Spells (n.text ++ '\n' :: rest)) :
    ∃ c', Evaluates .primary c.advance n.value c' ∧ c'.kind = .terminator ∧ c.Through rest c' := by
  have hs := sees_numeral hn h
  have ht := sees_newline hs.through.lexer
  exact ⟨_, .number hs.kind, ht.kind, hs.through.trans ht.through⟩

/-- **A line that shows a value** is a statement that has it. -/
theorem statement_of_line {x : Float} {line : List Char} (hx : Double.Shows x line)
    (h : c.lexer.Spells (line ++ '\n' :: rest)) :
    ∃ c', c.statement = (.value x, c') ∧ c.Through rest c' := by
  have hp : c.advance.kind.stops = false ∧
      ∃ c', Evaluates .primary c.advance x c' ∧ c'.kind = .terminator ∧ c.Through rest c' := by
    cases hx with
    | plain n hn hv =>
        subst hv
        exact ⟨by rw [(sees_numeral hn h).kind]; rfl, evaluates_numeral hn h⟩
    | negated n hn hv =>
        subst hv
        have hm := sees_minus h
        obtain ⟨c', he, hk, ht⟩ := evaluates_numeral hn hm.through.lexer
        exact ⟨by rw [hm.kind]; rfl, c', .negation hm.kind he, hk, hm.through.trans ht⟩
  obtain ⟨hk, c', he, hk', ht⟩ := hp
  refine ⟨_, ?_, ht.note x (decide (c.advance.errors < c'.errors))⟩
  rw [statement_of_not_stops hk, evaluateStatement, evaluate_of_lone he hk']

theorem statement_of_nothing (h : c.lexer.Spells []) :
    c.statement = (.exhausted, c.advance) ∧ c.journal.Gains [] c.advance.journal := by
  obtain ⟨l, hf, hx, -⟩ := Lexer.fetches_of_blank h rfl c.journal
  obtain ⟨hk, rfl, hg⟩ := advance_of_fetches hf
  exact ⟨statement_of_atEnd hk hx, hg⟩

end Calculator

/-! ### Lines -/

/-- **Lines of finite values** are a session that prints them again and reports nothing. -/
theorem Session.finish_of_lines {values : List Float} (hf : ∀ x ∈ values, x.isFinite = true) :
    ∀ {s : Session}, s.calculator.lexer.Spells (unlines (values.map Double.text)).toList →
      ∃ c, s.calculator.journal.Gains [] c.journal ∧ s.finish = (s.printing values c).closed c := by
  induction values with
  | nil =>
      intro s h
      obtain ⟨hs, hg⟩ := Calculator.statement_of_nothing h
      exact ⟨_, hg, finish_last hs⟩
  | cons x values ih =>
      intro s h
      obtain ⟨hx, hv⟩ := List.forall_mem_cons.mp hf
      have ht : (unlines ((x :: values).map Double.text)).toList =
          (Double.text x).toList ++ '\n' :: (unlines (values.map Double.text)).toList := by
        simp [unlines_cons]
      rw [ht] at h
      obtain ⟨c, hs, hc⟩ := Calculator.statement_of_line (Double.shows_text hx) h
      obtain ⟨d, hg, hd⟩ := ih hv (s := s.after (.value x) c) hc.lexer
      exact ⟨d, hc.journal.trans hg, by rw [finish_next hs nofun, hd, printing_after]⟩

/-- A run over lines of finite values. -/
theorem runSource_lines {values : List Float} (hf : ∀ x ∈ values, x.isFinite = true) :
    runSource (unlines (values.map Double.text)) = ⟨unlines (values.map Double.text), "", 0⟩ := by
  obtain ⟨c, hg, hc⟩ := Session.finish_of_lines hf (s := ⟨0, .ofInput (.ofString
    (unlines (values.map Double.text))) .seeded (.ofSink (.buffer "")), .buffer ""⟩)
    (Lexer.spells_ofInput _)
  have ho := Sink.printlnAll_buffer "" (values.map Double.text)
  rw [String.empty_append] at ho
  have hk : c.journal.sink = .buffer "" := hg.sink_eq
  have he : c.journal.errors = 0 := hg.errors_eq
  rw [runSource, runCaptured_of_finish hc, Run.outcome, Outcome.mk.injEq]
  exact ⟨congrArg Sink.captured ho, congrArg Sink.captured hk, he⟩

/-- The results of a run are the lines of its values. -/
theorem output_runSource_values (source : String) : (runSource source).output =
    unlines ((runCaptured (.ofString source)).journal.values.map Double.text) := by
  obtain ⟨-, -, -, -, -, ho⟩ :=
    chronicle_calculate (.ofString source) .seeded (.buffer "") (.buffer "")
  rw [Sink.printlnAll_buffer, String.empty_append] at ho
  exact congrArg Sink.captured ho

/-- **Results are a fixed point.**  If the values a run prints are finite, its results are lines of
them, and a run over these prints the same lines and reports nothing. -/
theorem runSource_results (source : String)
    (hf : ∀ x ∈ (runCaptured (.ofString source)).journal.values, x.isFinite = true) :
    let values := (runCaptured (.ofString source)).journal.values
    let results := (runSource source).output
    results = unlines (values.map Double.text) ∧ runSource results = ⟨results, "", 0⟩ := by
  intro values results
  have ho : results = unlines (values.map Double.text) := output_runSource_values source
  exact ⟨ho, by rw [ho]; exact runSource_lines hf⟩

/-- A negative result, a zero with its sign, faults, and more digits than a double has. -/
theorem runSource_results_faulty :
    let source := "-1/3;0*-1;2@(;7e22*10/7"
    (runSource source).errors = 3 ∧
      (runSource source).output = "-0.3333333333333333\n-0\n2\n1\n100000000000000010000000\n" ∧
      runSource (runSource source).output = ⟨(runSource source).output, "", 0⟩ := by
  intro source
  have hf : ∀ x ∈ (runCaptured (.ofString source)).journal.values, x.isFinite = true := by
    decide +kernel
  exact ⟨by decide +kernel, by decide +kernel, (runSource_results source hf).2⟩

end DeskCalculator

import DeskCalculator.Proofs.Evaluation.Beside
import DeskCalculator.Proofs.Lexer.Layout
import DeskCalculator.Proofs.Session.Lockstep

/-!
# Sessions — Layout does not matter

Calculators over two layouts of a text fetch tokens of the same kinds, so they are in lockstep, and
their sessions end alike.

**Layout is irrelevant** (`layout_irrelevant`).  A text and a new layout of it have tokens of the same
kinds, and a run over the one prints and reports the same as a run over the other.  Two tokens that
stand side by side stay the tokens they are when they are taken apart, though a scanner has tried to
make one of them: `2` and `e`, or `1.2` and `.3`.
-/

namespace DeskCalculator
open Lexer (FetchAlike Reads)

/-- Lexers that fetch alike make for runs with the same outcome. -/
theorem outcome_of_fetchAlike {P : Lexer → Lexer → Prop} (hP : ∀ {l m}, P l m → FetchAlike P l m)
    (hx : ∀ {l m : Lexer}, P l m → m.exhausted = l.exhausted) {i i' : Input}
    (h : P (.ofInput i) (.ofInput i')) :
    (runCaptured i').outcome = (runCaptured i).outcome := by
  have hr := Calculator.beside_ofInput h .seeded (.ofSink (.buffer ""))
  obtain ⟨n, c, d, output, hb, -, hf, hf'⟩ := (Calculator.lockstep_beside hP hx).finish
    (s := ⟨0, .ofInput i .seeded (.ofSink (.buffer "")), .buffer ""⟩)
    (t := ⟨0, .ofInput i' .seeded (.ofSink (.buffer "")), .buffer ""⟩) hr rfl
  rw [runCaptured_of_finish hf, runCaptured_of_finish hf']
  simp only [Run.outcome, Journal.note, hb.journal.sink, hb.journal.errors]

/-- A lexer over a text goes on at the start of its first line. -/
theorem goesOn_ofString (source : String) :
    (Lexer.ofInput (.ofString source)).GoesOn
      (0 + (Utf8.encode source.toList).length) 0 [] (Utf8.encode source.toList) 1 [] where
  onLine := Lexer.onLine_ofInput (Reader.holds_ofString source)
  ended _ := nofun
  whole := List.not_mem_nil
  here h := absurd rfl h
  below _ _ := ⟨rfl, rfl⟩

theorem tokens_of_relaid {source : String} {new : List Char} {tokens : List Token}
    (h : Relaid 1 [] source.toList tokens new) : tokens = (tokenize source).1 := by
  rw [← Utf8.decode_encode source.toList] at h
  rw [Relaid.tokens_eq (goesOn_ofString source) h, Lexer.coming_eq _ (.ofSink (.buffer ""))]
  rfl

/-- **Layout is irrelevant.**  A text has its own layout, with its tokens.  If blanks are put in between
its tokens, and its newlines and its `;` are exchanged, the kinds of the tokens stay the same, and so
does what a run prints and reports. -/
theorem layout_irrelevant (source : String) :
    Relaid 1 [] source.toList (tokenize source).1 source.toList ∧
      ∀ (tokens : List Token) (source' : String),
        Relaid 1 [] source.toList tokens source'.toList →
        tokens = (tokenize source).1 ∧
          (tokenize source').1.map Token.kind = (tokenize source).1.map Token.kind ∧
          runSource source' = runSource source := by
  refine ⟨?_, fun tokens source' h => ?_⟩
  · obtain ⟨tokens, h⟩ := exists_relaid 1 [] source.toList
    exact tokens_of_relaid h ▸ h
  · have hr : Reads (.ofInput (.ofString source)) (.ofInput (.ofString source')) :=
      .inl ⟨_, _, _, _, _, h, Lexer.spells_ofInput source, Lexer.spells_ofInput source'⟩
    have hk := Lexer.map_kind_coming Lexer.fetches_reads Reads.exhausted_eq hr
    rw [Lexer.coming_eq _ (.ofSink (.buffer "")), Lexer.coming_eq _ (.ofSink (.buffer ""))] at hk
    exact ⟨tokens_of_relaid h, hk, outcome_of_fetchAlike Lexer.fetches_reads Reads.exhausted_eq hr⟩

/-- `2`, `e` and `+` that a scanner has tried as one numeral, `1.2` and `.3`, and both separators. -/
theorem layout_irrelevant_apart :
    let source := "2e+;(1.2.3\n"
    let source' := " 2 e\t+\n(1.2 .3;\r"
    Relaid 1 [] source.toList (tokenize source).1 source'.toList ∧
      (tokenize source').1.map Token.kind =
        [.number 2, .name "e", .plus, .terminator, .openParen, .number 1.2, .number 0.3,
          .terminator] ∧
      runSource source' = runSource source ∧
      runSource source = ⟨"2\n2\n1\n",
        "error: primary expected\nerror: primary expected\nerror: ')' expected\n", 3⟩ := by
  intro source source'
  have hs : source.toList = ['2', 'e', '+', ';', '(', '1', '.', '2', '.', '3', '\n'] := by
    decide +kernel
  have hs' : source'.toList =
      [' ', '2', ' ', 'e', '\t', '+', '\n', '(', '1', '.', '2', ' ', '.', '3', ';', '\r'] := by
    decide +kernel
  obtain ⟨tokens, h⟩ : ∃ tokens, Relaid 1 [] source.toList tokens source'.toList := by
    rw [hs, hs']
    exact ⟨_, .insert rfl (.token '2' [] rfl (by decide) (by decide +kernel)
      (.insert rfl (.token 'e' [] rfl (by decide) (by decide +kernel)
        (.insert rfl (.token '+' [] rfl (by decide) (by decide +kernel)
          (.semicolon (.inl rfl) (.token '(' [] rfl (by decide) (by decide +kernel)
            (.token '1' ['.', '2'] rfl (by decide) (by decide +kernel)
              (.insert rfl (.token '.' ['3'] rfl (by decide) (by decide +kernel)
                (.newline (.inr rfl) (.insert rfl .done))))))))))))⟩
  obtain ⟨ht, hk, hr⟩ := (layout_irrelevant source).2 tokens source' h
  exact ⟨ht ▸ h, by rw [hk]; decide +kernel, hr, by decide +kernel⟩

end DeskCalculator

import DeskCalculator.Proofs.Lexer.Segments
import DeskCalculator.Proofs.Session.Independence
import DeskCalculator.Proofs.Session.Ledger
import DeskCalculator.Proofs.Session.Lines
import Mathlib.Data.List.Forall2

/-!
# Sessions — No statement disappears

The separators of a text cut it into segments, and a run over the text shows what sessions over its
segments show, one after the other, each with the variables that the one before it left
(`shown_segments`).  However a segment ends, in a dangling operator, an open parenthesis or a token
that nothing can be made of, the next one starts anew.

**What a segment is answered with** (`Answers`, `answers_shown`).  Every evaluation starts with a token
that stops none, and all tokens of a segment are used.  So there are at most as many values as there
are such tokens (`Conducts.length_values_le`).  If there is no value, then every token has stood in the
place of a statement, and the bad ones are all that is reported (`Conducts.of_no_values`).  In a segment
what stops an evaluation is a bad token, so one with any other token is answered with a line at least.
-/

namespace DeskCalculator

open Calculator

namespace Calculator

/-! ### Turns without a value -/

variable {c d : Calculator} {use : Use} {uses : List Use}

/-- The first token an evaluation uses is not one that stops it. -/
theorem Turn.length_value?_le (h : c.Turn use d) :
    use.value?.toList.length ≤ use.tokens.countP fun token => !token.kind.stops := by
  cases h with
  | evaluation hk _ hc _ =>
      obtain ⟨fetched, -, ht⟩ := hc.tokens
      have hk : c.advance.current.kind.stops = false := hk
      rw [Use.tokens, ← ht, List.countP_cons_of_pos (by rw [hk]; rfl)]
      exact Nat.le_add_left _ _
  | empty => exact Nat.zero_le _

/-- A statement without a value has a token that stops evaluations, and reports it if it is bad. -/
theorem Turn.of_no_value (h : c.Turn use d) (hv : use.value? = none) :
    (∀ token ∈ use.tokens, token.kind.stops = true) ∧
      c.journal.Gains (use.tokens.flatMap fun token => token.kind.problems) d.journal := by
  cases h with
  | evaluation => cases hv
  | empty hk =>
      refine ⟨List.forall_mem_singleton.mpr hk, ?_⟩
      rw [Use.tokens, List.flatMap_singleton]
      exact c.gains_advance

/-- **No more values than tokens to start with.** -/
theorem Conducts.length_values_le (h : c.Conducts uses d) : (uses.filterMap Use.value?).length ≤
    (uses.flatMap Use.tokens).countP fun token => !token.kind.stops := by
  induction h with
  | refl => exact Nat.le_refl _
  | @more _ _ _ use uses ht _ ih =>
      have hf : (use :: uses).filterMap Use.value? =
          use.value?.toList ++ uses.filterMap Use.value? := by
        rw [List.filterMap_cons]
        cases use.value? <;> rfl
      rw [hf, List.length_append, List.flatMap_cons, List.countP_append]
      exact Nat.add_le_add ht.length_value?_le ih

/-- **Without a value there are no tokens to start with**, and bad tokens are all that is reported. -/
theorem Conducts.of_no_values (h : c.Conducts uses d) (hv : uses.filterMap Use.value? = []) :
    (∀ token ∈ uses.flatMap Use.tokens, token.kind.stops = true) ∧
      c.journal.Gains ((uses.flatMap Use.tokens).flatMap fun token => token.kind.problems)
        d.journal := by
  induction h with
  | refl => exact ⟨nofun, .refl _⟩
  | more ht _ ih =>
      obtain ⟨hu, hus⟩ := List.forall_mem_cons.mp (List.filterMap_eq_nil_iff.mp hv)
      obtain ⟨hs, hg⟩ := ht.of_no_value hu
      obtain ⟨hs', hg'⟩ := ih (List.filterMap_eq_nil_iff.mpr hus)
      rw [List.flatMap_cons, List.flatMap_append]
      exact ⟨List.forall_mem_append.mpr ⟨hs, hs'⟩, hg.trans hg'⟩

end Calculator

/-! ### What a session shows -/

/-- What a session over a text shows. -/
def shown (table : Table) (source : String) : Outcome where
  output := (session table source).2.captured
  diagnostics := (session table source).1.journal.sink.captured
  errors := (session table source).1.errors

/-- The turns of a session over a text use its tokens, and a terminator behind them at most. -/
theorem exists_turns (table : Table) (source : String) : ∃ uses d rest,
    (ofInput (.ofString source) table (.ofSink (.buffer ""))).Conducts uses d ∧
    (uses.flatMap Use.tokens).map Token.kind = kinds source ++ rest ∧
    (∀ k ∈ rest, k = .terminator) ∧
    (session table source).2.captured = unlines ((uses.filterMap Use.value?).map Double.text) ∧
    (session table source).1.journal.problems = d.journal.problems := by
  obtain ⟨uses, d, hc, he, hd⟩ :=
    calculate_conducts (.ofInput (.ofString source) table (.ofSink (.buffer ""))) (.buffer "")
  have hs : session table source = _ := hd
  have hl := live_ofInput (.ofString source) table (.ofSink (.buffer ""))
  have hk : d.advance.current.kind = .terminator := he.kind
  have hn : d.advance.kind.problems = [] := he.kind ▸ rfl
  obtain ⟨rest, hr, hu⟩ : ∃ rest, (∀ k ∈ rest, k = .terminator) ∧
      (uses.flatMap Use.tokens).map Token.kind = kinds source ++ rest := by
    -- the last evaluation may have stopped at the terminator behind the text
    rcases (hc.all_used hl rfl he).2 with ⟨-, hu⟩ | ⟨-, hu, -⟩
    · refine ⟨[], nofun, ?_⟩
      rw [hu, List.append_nil, kinds_eq]
      rfl
    · refine ⟨[.terminator], fun k hm => List.mem_singleton.mp hm, ?_⟩
      rw [hu, List.map_append, List.map_singleton, hk, kinds_eq]
      rfl
  refine ⟨uses, d, rest, hc, hu, hr, ?_, ?_⟩
  · have ho := Sink.printlnAll_buffer "" ((uses.filterMap Use.value?).map Double.text)
    rw [Sink.printlnAll, List.foldl_map, String.empty_append] at ho
    rw [hs, ho]
    rfl
  · rw [hs]
    calc (d.advance.note (.finished _ _)).journal.problems
        = d.advance.journal.problems := Journal.problems_finished _ _ _
      _ = d.journal.problems := by rw [problems_advance, hn, List.append_nil]

/-- A session has no more values than its text has tokens to start with.  If it has none, there are no
such tokens, and the bad ones are reported and nothing else. -/
theorem exists_shown (table : Table) (source : String) : ∃ values problems,
    shown table source =
      ⟨unlines (values.map Double.text), unlines (problems.map Problem.line), problems.length⟩ ∧
    values.length ≤ (kinds source).countP (!·.stops) ∧
    (values = [] → (∀ k ∈ kinds source, k.stops = true) ∧
      problems = (kinds source).flatMap Kind.problems) := by
  obtain ⟨_, problems, _, -, hy⟩ :=
    exists_yields_alone source table (.ofSink (.buffer "")) (.buffer "")
  obtain ⟨uses, d, rest, hc, hu, hr, ho, hp⟩ := exists_turns table source
  refine ⟨uses.filterMap Use.value?, problems, ?_, ?_, fun hv => ?_⟩
  · rw [shown, ho, Yielded.diagnostics_eq hy, Yielded.errors_eq hy]
  · have hn : rest.countP (!·.stops) = 0 :=
      List.countP_eq_zero.mpr fun k hk => by rw [hr k hk]; nofun
    have hle := hc.length_values_le
    rwa [← Function.comp_def (fun k : Kind => !k.stops) Token.kind, ← List.countP_map, hu,
      List.countP_append, hn] at hle
  · obtain ⟨hs, hg⟩ := hc.of_no_values hv
    have hs' : ∀ k ∈ kinds source ++ rest, k.stops = true := by
      rw [← hu]
      exact List.forall_mem_map.mpr hs
    have hn : rest.flatMap Kind.problems = [] :=
      List.flatMap_eq_nil_iff.mpr fun k hk => by rw [hr k hk]; rfl
    refine ⟨fun k hk => hs' k (List.mem_append_left rest hk), ?_⟩
    calc problems = (session table source).1.journal.problems := (Yielded.problems_eq hy).symm
      _ = (uses.flatMap Use.tokens).flatMap fun token => token.kind.problems :=
          hp.trans hg.problems_eq
      _ = ((uses.flatMap Use.tokens).map Token.kind).flatMap Kind.problems := (List.flatMap_map ..).symm
      _ = (kinds source).flatMap Kind.problems := by
          rw [hu, List.flatMap_append, hn, List.append_nil]

/-! ### What a segment is answered with -/

/-- What is shown for a text without separators: nothing for blanks, a report for each token if all of
them are bad, and otherwise at least one line of output, and no more than there are other tokens. -/
structure Answers (text : String) (o : Outcome) : Prop where
  blank : (∀ c ∈ text.toList, isBlank c = true) → o = ⟨"", "", 0⟩
  bad : (∀ k ∈ kinds text, k.isBad = true) →
    o = ⟨"", unlines (((kinds text).flatMap Kind.problems).map Problem.line), (kinds text).length⟩
  other : (∃ k ∈ kinds text, k.isBad = false) →
    1 ≤ o.lines.length ∧ o.lines.length ≤ (kinds text).countP (!·.isBad)

/-- In a text without separators it is the bad tokens that stop evaluations. -/
theorem stops_eq_isBad {text : String} (h : Unseparated text) :
    ∀ k ∈ kinds text, k.stops = k.isBad := by
  intro k hk
  cases k with
  | terminator => exact absurd hk (terminator_not_mem_kinds h)
  | _ => rfl

theorem answers_shown {text : String} (h : Unseparated text) (table : Table) :
    Answers text (shown table text) := by
  obtain ⟨values, problems, ho, hle, hn⟩ := exists_shown table text
  have hs := stops_eq_isBad h
  have hlen : (shown table text).lines.length = values.length := by
    rw [ho, Outcome.lines, splitLines_texts, List.length_map]
  rw [List.countP_congr fun k hk => by rw [hs k hk]] at hle
  have hbad (hb : ∀ k ∈ kinds text, k.isBad = true) : shown table text =
      ⟨"", unlines (((kinds text).flatMap Kind.problems).map Problem.line), (kinds text).length⟩ := by
    -- there is no token that a value could start with
    have hv : values = [] := by
      rw [List.countP_eq_zero.mpr fun k hk => by rw [hb k hk]; nofun] at hle
      exact List.length_eq_zero_iff.mp (Nat.le_zero.mp hle)
    rw [ho, (hn hv).2, length_flatMap_problems, List.countP_eq_length.mpr hb, hv]
    rfl
  refine ⟨fun hb => ?_, hbad, fun ⟨k, hk, hb⟩ => ⟨?_, hlen ▸ hle⟩⟩
  · rw [hbad (kinds_eq_nil_iff.mpr hb ▸ nofun), kinds_eq_nil_iff.mpr hb]
    rfl
  · rw [hlen]
    refine List.length_pos_iff.mpr fun hv => ?_
    rw [← hs k hk, (hn hv).1 k hk] at hb
    cases hb

/-- What is answered with no line and no error is blank. -/
theorem Answers.silent_iff {text : String} {o : Outcome} (h : Answers text o) :
    o.output = "" ∧ o.errors = 0 ↔ ∀ c ∈ text.toList, isBlank c = true := by
  refine ⟨fun ⟨ho, he⟩ => kinds_eq_nil_iff.mp ?_, fun hb => ?_⟩
  · by_cases hb : ∃ k ∈ kinds text, k.isBad = false
    · have hl := (h.other hb).1
      rw [Outcome.lines, ho] at hl
      exact absurd hl (by decide)
    · have hb : ∀ k ∈ kinds text, k.isBad = true := by simpa using hb
      rw [h.bad hb] at he
      exact List.length_eq_zero_iff.mp he
  · rw [h.blank hb]
    exact ⟨rfl, rfl⟩

/-! ### One segment after the other -/

/-- What sessions over texts show, each with the variables that the one before it left. -/
def shownInTurn (table : Table) : List String → List Outcome
  | []            => []
  | text :: texts => shown table text :: shownInTurn (session table text).1.table texts

/-- What some outcomes are together. -/
def Outcome.joined (parts : List Outcome) : Outcome where
  output := String.join (parts.map output)
  diagnostics := String.join (parts.map diagnostics)
  errors := (parts.map errors).sum

theorem Outcome.joined_cons (o : Outcome) (parts : List Outcome) :
    joined (o :: parts) = ⟨o.output ++ (joined parts).output,
      o.diagnostics ++ (joined parts).diagnostics, o.errors + (joined parts).errors⟩ := by
  simp [joined]

/-- A session over a text with a separator shows what the two sessions show it consists of. -/
theorem inTurn_separated {sep : Char} (hsep : Separates sep) (a b : String) (table : Table) :
    InTurn (session table (a ++ .singleton sep ++ b)) (session table a)
      (session (session table a).1.table b) := by
  obtain ⟨values, problems, changes, -, ha⟩ :=
    exists_yields_alone a table (.ofSink (.buffer "")) (.buffer "")
  obtain ⟨more, further, others, -, hb, hb'⟩ := exists_yields b (session table a).1.table
    (e := (session table a).1) (kind_calculate _ _) (fun _ _ => rfl) (.ofSink (.buffer ""))
    (.buffer "") (session table a).2
  exact .of_yielded (Yields.separated hsep ha hb') ha hb

/-- **A text shows what its segments show**, one after the other. -/
theorem shown_segments (source : String) (table : Table) :
    shown table source = .joined (shownInTurn table (segments source)) := by
  induction source using segments_induction generalizing table with
  | last source h =>
      rw [segments_of_unseparated h]
      simp [shownInTurn, Outcome.joined]
  | first a sep b ha hs ih =>
      have ht := inTurn_separated hs a b table
      rw [segments_separated ha hs, shownInTurn, Outcome.joined_cons, ← ih, shown, ht.printed,
        ht.diagnostics, ht.errors]
      rfl

theorem forall₂_answers {texts : List String} (h : ∀ text ∈ texts, Unseparated text)
    (table : Table) : List.Forall₂ Answers texts (shownInTurn table texts) := by
  induction texts generalizing table with
  | nil => exact .nil
  | cons text texts ih =>
      obtain ⟨ht, hts⟩ := List.forall_mem_cons.mp h
      exact .cons (answers_shown ht table) (ih hts _)

section
variable {texts : List String} {parts : List Outcome} (h : List.Forall₂ Answers texts parts)
include h

theorem silent_joined_iff : (Outcome.joined parts).output = "" ∧ (Outcome.joined parts).errors = 0 ↔
    ∀ text ∈ texts, ∀ c ∈ text.toList, isBlank c = true := by
  induction h with
  | nil => exact iff_of_true ⟨rfl, rfl⟩ nofun
  | @cons text o texts parts ha _ ih =>
      rw [List.forall_mem_cons, ← ih, ← ha.silent_iff, Outcome.joined_cons,
        String.append_eq_empty_iff, Nat.add_eq_zero_iff]
      exact and_and_and_comm

theorem joined_of_blank (hb : ∀ text ∈ texts, ∀ c ∈ text.toList, isBlank c = true) :
    Outcome.joined parts = ⟨"", "", 0⟩ := by
  induction h with
  | nil => rfl
  | @cons text o texts parts ha _ ih =>
      obtain ⟨ht, hts⟩ := List.forall_mem_cons.mp hb
      rw [Outcome.joined_cons, ha.blank ht, ih hts]
      rfl

end

/-- **No statement disappears silently.**  A run over a text shows what its segments show, each
evaluated with the variables the ones before it left, and in their order.  The tokens of the text are
those of its segments, with a terminator for each separator.  For each segment there is nothing to be
seen if it is blank, one report for each token and nothing else if all its tokens are bad, and
otherwise at least one line of output and at most one for each token that is not bad.  So a run prints
nothing and reports nothing exactly if its text consists of blanks and separators. -/
theorem runSource_segments (source : String) :
    runSource source = .joined (shownInTurn .seeded (segments source)) ∧
      (∀ text ∈ segments source, Unseparated text) ∧
      kinds source = [.terminator].intercalate ((segments source).map kinds) ∧
      List.Forall₂ Answers (segments source) (shownInTurn .seeded (segments source)) ∧
      ((runSource source).output = "" ∧ (runSource source).errors = 0 ↔
        ∀ c ∈ source.toList, isBlank c = true ∨ Separates c) ∧
      (runSource source = ⟨"", "", 0⟩ ↔ ∀ c ∈ source.toList, isBlank c = true ∨ Separates c) := by
  have hw : runSource source = .joined (shownInTurn .seeded (segments source)) :=
    shown_segments source .seeded
  have hu := unseparated_of_mem_segments source
  have ha := forall₂_answers hu .seeded
  have hb := forall_mem_segments_iff (p := fun c => isBlank c = true) source
  have hs : (runSource source).output = "" ∧ (runSource source).errors = 0 ↔
      ∀ c ∈ source.toList, isBlank c = true ∨ Separates c := by
    rw [hw, silent_joined_iff ha, hb]
  refine ⟨hw, hu, kinds_segments source, ha, hs, fun h => hs.mp ?_, fun h => ?_⟩
  · rw [h]
    exact ⟨rfl, rfl⟩
  · rw [hw, joined_of_blank ha (hb.mpr h)]

/-- A token behind a value is dropped, two bad tokens are reported, and an open parenthesis is answered
with a line. -/
example : shownInTurn .seeded (segments "x 2 3;@ @;\n(pi") =
    [⟨"0\n3\n", "", 0⟩, ⟨"", "error: bad token\nerror: bad token\n", 2⟩, ⟨"", "", 0⟩,
      ⟨"1\n", "error: ')' expected\n", 1⟩] := by decide +kernel

end DeskCalculator

import DeskCalculator.Proofs.Lexer.Names
import DeskCalculator.Proofs.Session.Separators
import DeskCalculator.Proofs.Session.Statements
import DeskCalculator.Proofs.Table.Changes

/-!
# Sessions — One text, two tables

What does a session over a text depend on, and what does it do?  It prints values, reports problems,
and changes variables (`Yields`).  All three are the same from any two tables in which the names the
text mentions have the same values, and the changes are to these names only (`exists_yields`): the
session gives a value only to a name the text assigns, and creates only names it mentions.  What the
tables have under other names is neither seen nor changed.

Both sessions fetch the same tokens, so they go side by side (`Parallel`): each has made the same
changes to its own table, and its journal has gained the same problems.

A session over a text with a separator yields what the two sessions yield that it consists of
(`Yields.separated`).
-/

namespace DeskCalculator

open Table (Change)

/-- The change gives a value to a name of `writes`, or creates one of `reads`. -/
def Table.Change.Within (reads writes : String → Prop) : Change → Prop
  | .touch name => reads name
  | .set name _ => writes name

namespace Calculator

/-- The calculators have come from the tables `t` and `u` with the same changes, from the journals `j`
and `k` with the same problems, and have the same tokens to come. -/
structure Parallel (reads writes : String → Prop) (t u : Table) (j k : Journal)
    (c d : Calculator) : Prop where
  kind : d.kind = c.kind
  lexer : d.lexer = { c.lexer with current := d.current }
  within : c.lexer.Within reads writes
  table : ∃ changes, (∀ a ∈ changes, Change.Within reads writes a) ∧
    c.table = t.changes changes ∧ d.table = u.changes changes
  journal : ∃ problems, j.Gains problems c.journal ∧ k.Gains problems d.journal

namespace Parallel
variable {reads writes : String → Prop} {t u : Table} {j k : Journal} {c d : Calculator}
  (h : Parallel reads writes t u j k c d)
include h

/-- Both fetch the same token, and report it if it is bad. -/
theorem advance : Parallel reads writes t u j k c.advance d.advance := by
  obtain ⟨problems, hj, hk⟩ := h.journal
  have hl : d.advance.lexer = c.advance.lexer := by
    calc (d.lexer.next d.journal).1
        = (({ c.lexer with current := d.current } : Lexer).next d.journal).1 := by rw [← h.lexer]
      _ = (c.lexer.next d.journal).1 := by rw [Lexer.next_withCurrent]
      _ = (c.lexer.next c.journal).1 := Lexer.next_fst _ _ _
  have hk' : d.advance.kind = c.advance.kind := congrArg (·.current.kind) hl
  have hd := d.gains_advance
  rw [hk'] at hd
  refine ⟨hk', ?_, h.within.next c.journal, h.table, _, hj.trans c.gains_advance, hk.trans hd⟩
  rw [current, hl]

/-- A change both make to their tables. -/
theorem change {a : Change} (ha : a.Within reads writes) :
    Parallel reads writes t u j k (c.withTable (c.table.change a))
      (d.withTable (d.table.change a)) := by
  obtain ⟨changes, hw, ht, hu⟩ := h.table
  refine ⟨h.kind, h.lexer, h.within, ⟨changes ++ [a], ?_, ?_, ?_⟩, h.journal⟩
  · intro b hb
    rcases List.mem_append.mp hb with hb | hb
    · exact hw b hb
    · rwa [List.mem_singleton.mp hb]
  · rw [table_withTable, Table.changes_append, ht]
    rfl
  · rw [table_withTable, Table.changes_append, hu]
    rfl

theorem note {event : Event} (he : event.problem? = none) :
    Parallel reads writes t u j k (c.note event) (d.note event) := by
  obtain ⟨problems, hj, hk⟩ := h.journal
  exact ⟨h.kind, h.lexer, h.within, h.table, problems, hj.note he, hk.note he⟩

theorem report (problem : Problem) :
    Parallel reads writes t u j k (c.report problem) (d.report problem) := by
  obtain ⟨problems, hj, hk⟩ := h.journal
  exact ⟨h.kind, h.lexer, h.within, h.table, _, hj.report problem, hk.report problem⟩

theorem value {name : String} (hv : u.value name = t.value name) :
    d.table.value name = c.table.value name := by
  obtain ⟨changes, -, ht, hu⟩ := h.table
  rw [ht, hu, Table.value_changes_congr hv]

end Parallel

/-- **Calculators that agree on the names of a text read it in unison.** -/
theorem unison_parallel {reads writes : String → Prop} {t u : Table} (j k : Journal)
    (hv : ∀ name, reads name → u.value name = t.value name) :
    Unison reads writes (Parallel reads writes t u j k) where
  kind h := h.kind
  named h hk := ⟨h.within.of_name hk, h.within.of_assign hk⟩
  value h hn := h.value (hv _ hn)
  errors h h' := by
    obtain ⟨problems, hj, hk⟩ := h.journal
    obtain ⟨problems', hj', hk'⟩ := h'.journal
    simp only [Calculator.errors, hj.errors_eq, hk.errors_eq, hj'.errors_eq, hk'.errors_eq,
      Nat.add_lt_add_iff_left]
  fetch h := h.advance
  report h problem := h.report problem
  touch h hn := h.change (a := .touch _) hn
  store h hn value := h.change (a := .set _ value) hn
  evaluated h _ _ := h.note rfl
  exhausted h := by rw [h.lexer]

/-- What a calculation does: it prints values, its journal gains problems, and its table is changed. -/
structure Yields (c : Calculator) (output : Sink) (values : List Float) (problems : List Problem)
    (changes : List Change) : Prop where
  printed : (calculate c output).2 = output.printlnAll (values.map Double.text)
  journal : c.journal.Gains problems (calculate c output).1.journal
  table : (calculate c output).1.table = c.table.changes changes

/-- A session ends at a terminator. -/
theorem kind_calculate (c : Calculator) (output : Sink) :
    (calculate c output).1.kind = .terminator := by
  obtain ⟨uses, d, -, he, hd⟩ := calculate_conducts c output
  rw [hd]
  exact he.kind

theorem yields_of_finish {c d : Calculator} {output : Sink} {values : List Float}
    {problems : List Problem} {changes : List Change}
    (h : Session.finish ⟨0, c, output⟩ = (Session.printing ⟨0, c, output⟩ values d).closed d)
    (hj : c.journal.Gains problems d.journal) (ht : d.table = c.table.changes changes) :
    c.Yields output values problems changes := by
  have he := calculate_eq h
  constructor
  · rw [he]
    rfl
  · rw [he]
    exact hj.note rfl
  · rw [he]
    exact ht

/-- **A session sees and changes only the names of its text.**  A session over a text that starts with
`table` and one that starts where another calculator has come to yield the same, if the names the text
mentions have the same values there; and no name is given a value that the text does not assign. -/
theorem exists_yields (source : String) (table : Table) {e : Calculator} (hk : e.kind = .terminator)
    (hv : ∀ name, Mentions source name → e.table.value name = table.value name) (journal : Journal)
    (output output' : Sink) :
    ∃ values problems changes,
      (∀ a ∈ changes, Change.Within (Mentions source) (Assigns source) a) ∧
      (ofInput (.ofString source) table journal).Yields output values problems changes ∧
      (e.setInput (.ofString source)).Yields output' values problems changes := by
  have hp : Parallel (Mentions source) (Assigns source) table e.table journal e.journal
      (ofInput (.ofString source) table journal) (e.setInput (.ofString source)) :=
    ⟨hk, rfl, Lexer.within_ofString source _ rfl, ⟨[], nofun, rfl, rfl⟩, [], .refl _, .refl _⟩
  obtain ⟨values, c, d, hr, -, hc, hd⟩ := (unison_parallel journal e.journal hv).finish
    ⟨0, ofInput (.ofString source) table journal, output⟩
    (t := ⟨0, e.setInput (.ofString source), output'⟩) hp
  obtain ⟨changes, hw, ht, hu⟩ := hr.table
  obtain ⟨problems, hj, hk'⟩ := hr.journal
  exact ⟨values, problems, changes, hw, yields_of_finish hc hj ht, yields_of_finish hd hk' hu⟩

/-- Every session yields something, and changes only the names of its text. -/
theorem exists_yields_alone (source : String) (table : Table) (journal : Journal) (output : Sink) :
    ∃ values problems changes,
      (∀ a ∈ changes, Change.Within (Mentions source) (Assigns source) a) ∧
      (ofInput (.ofString source) table journal).Yields output values problems changes := by
  have hk : (ofInput .empty table journal).kind = .terminator := rfl
  obtain ⟨values, problems, changes, hw, hy, -⟩ :=
    exists_yields source table hk (fun _ _ => rfl) journal output output
  exact ⟨values, problems, changes, hw, hy⟩

/-- **What is separated is yielded one after the other.** -/
theorem Yields.separated {sep : Char} (hsep : Separates sep) {a b : String} {table : Table}
    {journal : Journal} {output : Sink} {values more : List Float} {problems further : List Problem}
    {changes others : List Change}
    (ha : (ofInput (.ofString a) table journal).Yields output values problems changes)
    (hb : ((calculate (ofInput (.ofString a) table journal) output).1.setInput (.ofString b)).Yields
      (calculate (ofInput (.ofString a) table journal) output).2 more further others) :
    (ofInput (.ofString (a ++ .singleton sep ++ b)) table journal).Yields output (values ++ more)
      (problems ++ further) (changes ++ others) := by
  obtain ⟨before, rest, n, m, k, c, d, e, output', output'', -, -, hr, hf, hw, hs⟩ :=
    finish_separated hsep (before_ofString sep a b) table journal output
  obtain ⟨values', problems', changes', -, -, hj'', -⟩ :=
    exists_yields_alone (a ++ .singleton sep ++ b) table journal output
  replace hf := calculate_eq hf
  replace hw := calculate_eq hw
  replace hs := calculate_eq hs
  obtain ⟨ho, hj, ht⟩ := ha
  rw [hf] at hb ho hj ht
  obtain ⟨ho', hj', ht'⟩ := hb
  rw [hs] at ho' hj' ht'
  rw [hw] at hj''
  -- the journal of the whole gains some problems, and it has those of the second session
  have hp : problems' = problems ++ further := by
    have hw' : (c.note (.finished n c.errors)).journal.problems =
        (d.note (.finished m d.errors)).journal.problems := by
      calc (c.note (.finished n c.errors)).journal.problems
          = c.journal.problems := Journal.problems_finished _ _ _
        _ = d.journal.problems := hr.journal.problems.symm
        _ = _ := (Journal.problems_finished _ _ _).symm
    exact List.append_cancel_left
      (hj''.problems_eq.symm.trans (hw'.trans (hj.trans hj').problems_eq))
  constructor
  · rw [hw, List.map_append, Sink.printlnAll_append, ← ho]
    exact ho'
  · rw [hw, ← hp]
    exact hj''
  · rw [hw, Table.changes_append]
    calc c.table = d.table := hr.table.symm
      _ = e.table.changes others := ht'
      _ = (table.changes changes).changes others := congrArg (·.changes others) ht

end Calculator

end DeskCalculator

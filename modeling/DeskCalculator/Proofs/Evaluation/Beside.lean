import DeskCalculator.Proofs.Evaluation.Simulation
import DeskCalculator.Proofs.Lexer.Separator

/-!
# Evaluation — Calculators over different texts

Two calculators may read different texts and still evaluate the same: as long as their lexers fetch
tokens of the same kinds, they have the same table, and in their journals the same problems and the
same values in the same order (`account`), while the spans of their tokens differ (`Beside`).  How
the two lexers stand to one another is a relation that each fetch has to keep; the evaluation keeps
everything else (`simulation_beside`).
-/

namespace DeskCalculator

namespace Event

/-- Whether an event is about a statement, and not about the reading of its tokens. -/
def ofStatement : Event → Bool
  | .reported .. | .evaluated .. => true
  | _                            => false

/-- The event, if it is about a statement. -/
def account (event : Event) : List Event := [event].filter ofStatement

/-- The kind of the token, if the event is the fetch of one. -/
def kinds : Event → List Kind
  | .fetched token => [token.kind]
  | _              => []

end Event

namespace Journal

/-- The problems and the values, in the order they came. -/
def account (j : Journal) : List Event := j.events.toList.filter Event.ofStatement

/-- The kinds of the tokens fetched. -/
def kinds (j : Journal) : List Kind := j.tokens.map Token.kind

theorem problems_eq_account (j : Journal) :
    j.problems = j.account.filterMap fun
      | .reported problem _ => some problem
      | _                   => none := by
  rw [problems, account, List.filterMap_filter]
  congr 1
  funext event
  cases event <;> rfl

theorem values_eq_account (j : Journal) :
    j.values = j.account.filterMap fun
      | .evaluated value _ => some value
      | _                  => none := by
  rw [values, account, List.filterMap_filter]
  congr 1
  funext event
  cases event <;> rfl

theorem account_note (j : Journal) (event : Event) :
    (j.note event).account = j.account ++ event.account := by
  rw [account, note, Array.toList_push, List.filter_append]
  rfl

theorem account_report (j : Journal) (problem : Problem) :
    (j.report problem).account = j.account ++ [.reported problem (j.errors + 1)] :=
  account_note j (.reported problem (j.errors + 1))

theorem kinds_note (j : Journal) (event : Event) :
    (j.note event).kinds = j.kinds ++ event.kinds := by
  rw [kinds, tokens, note, Array.toList_push, List.filterMap_append, List.map_append]
  cases event <;> rfl

theorem kinds_report (j : Journal) (problem : Problem) : (j.report problem).kinds = j.kinds :=
  congrArg (List.map Token.kind) (tokens_report j problem)

/-- The journals give the same account, and have the same kinds of tokens behind `before` and
`before'`. -/
structure Alike (before before' : List Kind) (j k : Journal) : Prop where
  errors : k.errors = j.errors
  last : k.last = j.last
  sink : k.sink = j.sink
  account : k.account = j.account
  kinds : ∃ more, j.kinds = before ++ more ∧ k.kinds = before' ++ more

namespace Alike
variable {before before' : List Kind} {j k : Journal}

theorem refl (j : Journal) : Alike [] [] j j := ⟨rfl, rfl, rfl, rfl, _, rfl, rfl⟩

theorem problems (h : Alike before before' j k) : k.problems = j.problems := by
  rw [problems_eq_account, problems_eq_account, h.account]

theorem values (h : Alike before before' j k) : k.values = j.values := by
  rw [values_eq_account, values_eq_account, h.account]

theorem report (h : Alike before before' j k) (problem : Problem) :
    Alike before before' (j.report problem) (k.report problem) where
  errors := congrArg (· + 1) h.errors
  last := rfl
  sink := congrArg (·.println problem.line) h.sink
  account := by rw [account_report, account_report, h.account, h.errors]
  kinds := by
    rw [kinds_report, kinds_report]
    exact h.kinds

theorem note (h : Alike before before' j k) {event event' : Event}
    (ha : event'.account = event.account) (hk : event'.kinds = event.kinds) :
    Alike before before' (j.note event) (k.note event') where
  errors := h.errors
  last := h.last
  sink := h.sink
  account := by rw [account_note, account_note, h.account, ha]
  kinds := by
    obtain ⟨more, hj, hk'⟩ := h.kinds
    rw [kinds_note, kinds_note, hj, hk', hk, List.append_assoc, List.append_assoc]
    exact ⟨_, rfl, rfl⟩

/-- What was fetched up to here, set apart from what is to come. -/
theorem rebase (h : Alike [] [] j k) : Alike j.kinds j.kinds j k where
  errors := h.errors
  last := h.last
  sink := h.sink
  account := h.account
  kinds := by
    obtain ⟨more, hj, hk⟩ := h.kinds
    exact ⟨[], (List.append_nil _).symm, by rw [List.append_nil, hk, hj]⟩

theorem check (h : Alike before before' j k) (kind : Kind) :
    Alike before before' (Lexer.check kind j) (Lexer.check kind k) := by
  cases kind with
  | bad found => exact h.report _
  | _ => exact h

end Alike

end Journal

namespace Calculator
open Lexer (FetchAlike)

/-- The calculators are to evaluate the same, with their lexers in `P`. -/
structure Beside (P : Lexer → Lexer → Prop) (before before' : List Kind) (c d : Calculator) :
    Prop where
  kind : d.kind = c.kind
  table : d.table = c.table
  journal : Journal.Alike before before' c.journal d.journal
  lexer : P c.lexer d.lexer

variable {P : Lexer → Lexer → Prop} {before before' : List Kind} {c d : Calculator}

/-- Calculators that have read nothing are beside each other if their lexers are. -/
theorem beside_ofInput {i i' : Input} (h : P (.ofInput i) (.ofInput i')) (table : Table)
    (journal : Journal) : Beside P [] [] (ofInput i table journal) (ofInput i' table journal) :=
  ⟨rfl, rfl, .refl journal, h⟩

theorem Beside.advance (h : Beside P before before' c d) {Q : Lexer → Lexer → Prop}
    (hf : FetchAlike Q c.lexer d.lexer) : Beside Q before before' c.advance d.advance := by
  obtain ⟨kind, l', m', ⟨hl, hk⟩, ⟨hm, hk'⟩, hq⟩ := hf c.journal d.journal
  have hc : c.advance = ⟨l', c.table, (Lexer.check kind c.journal).note (.fetched l'.current)⟩ := by
    simp only [Calculator.advance, hl]
  have hd : d.advance = ⟨m', d.table, (Lexer.check kind d.journal).note (.fetched m'.current)⟩ := by
    simp only [Calculator.advance, hm]
  have hn : (Event.fetched m'.current).kinds = (Event.fetched l'.current).kinds := by
    rw [Event.kinds, hk', ← hk]
    rfl
  rw [hc, hd]
  exact ⟨hk'.trans hk.symm, h.table, (h.journal.check kind).note rfl hn, hq⟩

/-- Lexers that fetch tokens of the same kinds up to the next terminator make for the same
evaluation. -/
theorem simulation_beside
    (hP : ∀ {l m}, P l m → l.current.kind ≠ .terminator → FetchAlike P l m) :
    Simulation (Beside P before before') where
  kind h := h.kind
  table h := h.table
  errors h := h.journal.errors
  advance h hk := h.advance (hP h.lexer hk)
  report h problem := ⟨h.kind, h.table, h.journal.report problem, h.lexer⟩
  withTable h _ := ⟨h.kind, rfl, h.journal, h.lexer⟩
  evaluated h _ _ := ⟨h.kind, h.table, h.journal.note rfl rfl, h.lexer⟩

/-- Lexers that fetch tokens of the same kinds to the end make for the same session. -/
theorem lockstep_beside (hP : ∀ {l m}, P l m → FetchAlike P l m)
    (hx : ∀ {l m : Lexer}, P l m → m.exhausted = l.exhausted) :
    Lockstep (Beside P before before') where
  toSimulation := simulation_beside fun h _ => hP h
  fetch h := h.advance (hP h.lexer)
  exhausted h := hx h.lexer

end Calculator

end DeskCalculator

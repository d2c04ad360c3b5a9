import DeskCalculator.Event
import DeskCalculator.Sink

/-!
# Diagnostics — The journal

What a run has to say for itself: the number of problems reported, the last of them, the sink that
holds their diagnostic lines, and the events so far.  A problem never stops a statement: its report
is recorded, and the evaluation goes on with `faultValue` in place of the faulty part.
-/

namespace DeskCalculator

/-- The value that stands for a part that could not be evaluated. -/
def faultValue : Float := 1

structure Journal where
  errors : Nat
  last : Option Problem
  sink : Sink
  events : Array Event
  deriving DecidableEq

namespace Journal

/-- A journal with nothing in it yet. -/
def ofSink (sink : Sink) : Journal := ⟨0, none, sink, #[]⟩

/-- Adds an event. -/
def note (j : Journal) (event : Event) : Journal := { j with events := j.events.push event }

/-- Writes a line, and leaves the rest as it is. -/
def println (j : Journal) (line : String) : Journal := { j with sink := j.sink.println line }

/-- Counts a problem, writes its line, and keeps it as the last. -/
def report (j : Journal) (problem : Problem) : Journal :=
  { j.println problem.line with
    errors := j.errors + 1
    last := some problem
    events := j.events.push (.reported problem (j.errors + 1)) }

/-- Empties the sink, if it captures; neither the count nor the last problem changes. -/
def clear (j : Journal) : Journal := { j with sink := j.sink.clear }

/-- The text of the sink, and the journal with the sink emptied. -/
def take (j : Journal) : String × Journal := (j.sink.captured, j.clear)

/-- The events of a level and above. -/
def eventsFrom (j : Journal) (level : Level) : List Event :=
  j.events.toList.filter fun event => level.rank ≤ event.level.rank

/-- The problems reported, in order. -/
def problems (j : Journal) : List Problem :=
  j.events.toList.filterMap fun
    | .reported problem _ => some problem
    | _                   => none

/-- The tokens fetched, in order. -/
def tokens (j : Journal) : List Token :=
  j.events.toList.filterMap fun
    | .fetched token => some token
    | _              => none

/-- The values of the statements evaluated, in order. -/
def values (j : Journal) : List Float :=
  j.events.toList.filterMap fun
    | .evaluated value _ => some value
    | _                  => none

/-! ### What a note and a report change -/

@[simp] theorem problems_evaluated (j : Journal) (value : Float) (faulted : Bool) :
    (j.note (.evaluated value faulted)).problems = j.problems := by
  simp [problems, note]

@[simp] theorem problems_finished (j : Journal) (statements errors : Nat) :
    (j.note (.finished statements errors)).problems = j.problems := by
  simp [problems, note]

@[simp] theorem problems_report (j : Journal) (problem : Problem) :
    (j.report problem).problems = j.problems ++ [problem] := by
  simp [problems, report]

@[simp] theorem tokens_evaluated (j : Journal) (value : Float) (faulted : Bool) :
    (j.note (.evaluated value faulted)).tokens = j.tokens := by
  simp [tokens, note]

@[simp] theorem tokens_finished (j : Journal) (statements errors : Nat) :
    (j.note (.finished statements errors)).tokens = j.tokens := by
  simp [tokens, note]

@[simp] theorem tokens_report (j : Journal) (problem : Problem) :
    (j.report problem).tokens = j.tokens := by
  simp [tokens, report]

end Journal

end DeskCalculator

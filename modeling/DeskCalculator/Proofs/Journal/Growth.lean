import DeskCalculator.Journal

/-!
# Diagnostics — What is added to a journal

A journal only grows: events are added to its log, and those among them that are reports are counted,
printed, and the last of them is kept (`Grows`).  What the count, the last problem, the sink and the
log say of a run can so be read off the events alone; it is kept by whatever adds events one after the
other (`Grows.trans`).  Where it is not asked which events there are, only what they report, the
journal gains some problems (`Gains`).
-/

namespace DeskCalculator

/-- The text of lines, each with a newline behind it. -/
def unlines (lines : List String) : String := lines.foldr (fun line text => line ++ "\n" ++ text) ""

@[simp] theorem unlines_cons (line : String) (lines : List String) :
    unlines (line :: lines) = line ++ "\n" ++ unlines lines := rfl

theorem unlines_eq_empty_iff {lines : List String} : unlines lines = "" ↔ lines = [] := by
  cases lines with
  | nil => exact iff_of_true rfl rfl
  | cons line lines => simp [String.append_eq_empty_iff]

theorem unlines_append (lines more : List String) :
    unlines (lines ++ more) = unlines lines ++ unlines more := by
  induction lines with
  | nil => exact String.empty_append.symm
  | cons line lines ih =>
      rw [List.cons_append, unlines_cons, ih, unlines_cons]
      exact (String.append_assoc ..).symm

/-- The sink with some lines added. -/
def Sink.printlnAll (sink : Sink) (lines : List String) : Sink := lines.foldl println sink

theorem Sink.printlnAll_append (sink : Sink) (lines more : List String) :
    sink.printlnAll (lines ++ more) = (sink.printlnAll lines).printlnAll more := List.foldl_append

theorem Sink.printlnAll_buffer (text : String) (lines : List String) :
    (Sink.buffer text).printlnAll lines = .buffer (text ++ unlines lines) := by
  induction lines generalizing text with
  | nil => exact congrArg Sink.buffer String.append_empty.symm
  | cons line lines ih =>
      refine (ih (text ++ line ++ "\n")).trans (congrArg Sink.buffer ?_)
      rw [unlines_cons, String.append_assoc, String.append_assoc, String.append_assoc]

namespace Event

/-- The problem, if the event is a report. -/
def problem? : Event → Option Problem
  | .reported problem _ => some problem
  | _                   => none

/-- The number of a report, if the event is one. -/
def count? : Event → Option Nat
  | .reported _ count => some count
  | _                 => none

/-- The token, if the event is the fetch of one. -/
def token? : Event → Option Token
  | .fetched token => some token
  | _              => none

end Event

/-- The problems reported in a log, in order. -/
def problemsIn (log : List Event) : List Problem := log.filterMap Event.problem?

/-- The numbers of the reports in a log, in order. -/
def countsIn (log : List Event) : List Nat := log.filterMap Event.count?

/-- The tokens fetched in a log, in order. -/
def tokensIn (log : List Event) : List Token := log.filterMap Event.token?

@[simp] theorem problemsIn_append {log more : List Event} :
    problemsIn (log ++ more) = problemsIn log ++ problemsIn more := List.filterMap_append

@[simp] theorem countsIn_append (log more : List Event) :
    countsIn (log ++ more) = countsIn log ++ countsIn more := List.filterMap_append

@[simp] theorem tokensIn_append (log more : List Event) :
    tokensIn (log ++ more) = tokensIn log ++ tokensIn more := List.filterMap_append

namespace Journal

theorem problems_eq (j : Journal) : j.problems = problemsIn j.events.toList := rfl

theorem tokens_eq (j : Journal) : j.tokens = tokensIn j.events.toList := rfl

/-- `k` is `j` with the events of `log` added, the reports among them counted and printed. -/
structure Grows (j : Journal) (log : List Event) (k : Journal) : Prop where
  events : k.events.toList = j.events.toList ++ log
  errors : k.errors = j.errors + (problemsIn log).length
  counts : countsIn log = List.range' (j.errors + 1) (problemsIn log).length
  last : k.last = (problemsIn log).getLast?.or j.last
  sink : k.sink = j.sink.printlnAll ((problemsIn log).map Problem.line)

namespace Grows
variable {j k m : Journal} {log more : List Event}

theorem refl (j : Journal) : j.Grows [] j := ⟨(List.append_nil _).symm, rfl, rfl, rfl, rfl⟩

theorem trans (h : j.Grows log k) (h' : k.Grows more m) : j.Grows (log ++ more) m where
  events := by rw [h'.events, h.events, List.append_assoc]
  errors := by rw [h'.errors, h.errors, problemsIn_append, List.length_append, Nat.add_assoc]
  counts := by
    rw [countsIn_append, h.counts, h'.counts, h.errors, problemsIn_append, List.length_append,
      Nat.add_right_comm, List.range'_append_1]
  last := by rw [h'.last, h.last, problemsIn_append, List.getLast?_append, Option.or_assoc]
  sink := by rw [h'.sink, h.sink, problemsIn_append, List.map_append, Sink.printlnAll_append]

theorem problems (h : j.Grows log k) : k.problems = j.problems ++ problemsIn log := by
  rw [problems_eq, problems_eq, h.events, problemsIn_append]

theorem tokens (h : j.Grows log k) : k.tokens = j.tokens ++ tokensIn log := by
  rw [tokens_eq, tokens_eq, h.events, tokensIn_append]

theorem of_note (j : Journal) {event : Event} (h : event.problem? = none) :
    j.Grows [event] (j.note event) := by
  have hp : problemsIn [event] = [] := by rw [problemsIn, List.filterMap_cons, h]; rfl
  have hc : countsIn [event] = [] := by cases event <;> first | rfl | cases h
  refine ⟨Array.toList_push, ?_, ?_, ?_, ?_⟩ <;> rw [hp]
  · rfl
  · exact hc
  · rfl
  · rfl

theorem of_report (j : Journal) (problem : Problem) :
    j.Grows [.reported problem (j.errors + 1)] (j.report problem) :=
  ⟨Array.toList_push, rfl, rfl, rfl, rfl⟩

theorem note (h : j.Grows log k) {event : Event} (he : event.problem? = none) :
    j.Grows (log ++ [event]) (k.note event) := h.trans (of_note k he)

end Grows

/-- `k` is `j` with some events added, which report `problems`. -/
def Gains (j : Journal) (problems : List Problem) (k : Journal) : Prop :=
  ∃ log, j.Grows log k ∧ problemsIn log = problems

theorem Grows.gains {j k : Journal} {log : List Event} (h : j.Grows log k) :
    j.Gains (problemsIn log) k := ⟨log, h, rfl⟩

namespace Gains
variable {j k m : Journal} {problems more : List Problem}

theorem refl (j : Journal) : j.Gains [] j := ⟨[], .refl j, rfl⟩

theorem trans (h : j.Gains problems k) (h' : k.Gains more m) : j.Gains (problems ++ more) m := by
  obtain ⟨log, hg, rfl⟩ := h
  obtain ⟨log', hg', rfl⟩ := h'
  exact ⟨log ++ log', hg.trans hg', problemsIn_append⟩

theorem problems_eq (h : j.Gains problems k) : k.problems = j.problems ++ problems := by
  obtain ⟨log, hg, rfl⟩ := h
  exact hg.problems

theorem errors_eq (h : j.Gains problems k) : k.errors = j.errors + problems.length := by
  obtain ⟨log, hg, rfl⟩ := h
  exact hg.errors

theorem last_eq (h : j.Gains problems k) : k.last = problems.getLast?.or j.last := by
  obtain ⟨log, hg, rfl⟩ := h
  exact hg.last

theorem sink_eq (h : j.Gains problems k) :
    k.sink = j.sink.printlnAll (problems.map Problem.line) := by
  obtain ⟨log, hg, rfl⟩ := h
  exact hg.sink

theorem note (h : j.Gains problems k) {event : Event} (he : event.problem? = none) :
    j.Gains problems (k.note event) := by
  have hn := h.trans (Grows.of_note k he).gains
  rwa [problemsIn, List.filterMap_cons, he, List.filterMap_nil, List.append_nil] at hn

theorem report (h : j.Gains problems k) (problem : Problem) :
    j.Gains (problems ++ [problem]) (k.report problem) := h.trans (Grows.of_report k problem).gains

end Gains

end Journal

end DeskCalculator

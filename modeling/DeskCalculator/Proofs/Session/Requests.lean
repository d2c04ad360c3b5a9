import DeskCalculator.Proofs.Session.Chronicle
import DeskCalculator.Session.Requests

/-!
# Sessions — The error ledger

Each request to a calculator either empties the sink of its diagnostics and leaves the rest of the
journal as it is, or adds to the journal what it reports (`gains_perform`, `journal_perform_of_empties`).

**The ledger is exact** (`performAll_ledger`).  So after any requests the number of errors is the number
of problems reported, the last problem is the last of them, and the sink holds the diagnostic lines of
those reported since it was emptied.  For a run this means one line of diagnostics for each error, and
an exit status that is zero exactly if there is none.
-/

namespace DeskCalculator

namespace Request

/-- Whether the sink is empty after the request. -/
def empties : Request → Bool
  | .clear | .take => true
  | _              => false

/-- Whether the request has nothing to report. -/
def quiet : Request → Bool
  | .setInput _ | .clear | .take | .write _ => true
  | _                                       => false

end Request

namespace Calculator

theorem performAll_append (c : Calculator) (requests more : List Request) :
    c.performAll (requests ++ more) = (c.performAll requests).performAll more := List.foldl_append

/-! ### What a request reports -/

theorem gains_evaluateFrom (c : Calculator) (lookahead : Lookahead) :
    ∃ problems, c.journal.Gains problems (c.evaluateFrom lookahead).2.journal := by
  have he : ∀ d : Calculator, ∃ problems, d.journal.Gains problems d.evaluate.2.journal := by
    intro d
    obtain ⟨consumed, hc⟩ := consumes_evaluate d
    obtain ⟨log, hg, -⟩ := hc.reading
    exact ⟨_, hg.gains⟩
  cases lookahead with
  | fetch =>
      obtain ⟨problems, hg⟩ := he c.advance
      exact ⟨_, c.gains_advance.trans hg⟩
  | current => exact he c

theorem gains_statement (c : Calculator) :
    ∃ problems, c.journal.Gains problems c.statement.2.journal := by
  rcases c.statement_cases with he | ⟨use, d, ht⟩
  · rw [he.statement]
    exact ⟨_, c.gains_advance⟩
  · obtain ⟨story, -, hg⟩ := ht.tells
    rw [ht.statement]
    exact ⟨_, hg.gains⟩

theorem gains_calculate (c : Calculator) (output : Sink) :
    ∃ problems, c.journal.Gains problems (DeskCalculator.calculate c output).1.journal := by
  obtain ⟨uses, d, hc, -, hr⟩ := calculate_conducts c output
  obtain ⟨log, -, hg⟩ := hc.tells
  rw [hr]
  exact ⟨_, (hg.gains.trans d.gains_advance).note rfl⟩

/-- A request that does not empty the sink adds what it reports; some have nothing to report. -/
theorem gains_perform (c : Calculator) {r : Request} (h : r.empties = false) :
    ∃ problems, c.journal.Gains problems (c.perform r).journal ∧ (r.quiet = true → problems = []) := by
  cases r with
  | clear | take => cases h
  | statement => exact c.gains_statement.imp fun _ hg => ⟨hg, nofun⟩
  | evaluate lookahead => exact (c.gains_evaluateFrom lookahead).imp fun _ hg => ⟨hg, nofun⟩
  | calculate output => exact (c.gains_calculate output).imp fun _ hg => ⟨hg, nofun⟩
  | report problem => exact ⟨[problem], (Journal.Grows.of_report _ problem).gains, nofun⟩
  | setInput | write => exact ⟨[], .refl _, fun _ => rfl⟩

theorem journal_perform_of_empties (c : Calculator) {r : Request} (h : r.empties = true) :
    (c.perform r).journal = c.journal.clear := by
  cases r <;> first | rfl | cases h

/-- Requests that do not empty the sink add what they report. -/
theorem gains_performAll (c : Calculator) {requests : List Request}
    (h : ∀ r ∈ requests, r.empties = false) :
    ∃ problems, c.journal.Gains problems (c.performAll requests).journal := by
  induction requests generalizing c with
  | nil => exact ⟨[], .refl _⟩
  | cons r requests ih =>
      obtain ⟨hr, hrs⟩ := List.forall_mem_cons.mp h
      obtain ⟨problems, hg, -⟩ := c.gains_perform hr
      obtain ⟨more, hm⟩ := ih (c.perform r) hrs
      exact ⟨problems ++ more, hg.trans hm⟩

/-- No request takes a report back; some have nothing to report. -/
theorem problems_perform (c : Calculator) (r : Request) :
    ∃ problems, (c.perform r).journal.problems = c.journal.problems ++ problems ∧
      (r.quiet = true → problems = []) := by
  cases h : r.empties with
  | true =>
      refine ⟨[], ?_, fun _ => rfl⟩
      rw [journal_perform_of_empties c h, List.append_nil]
      rfl
  | false =>
      obtain ⟨problems, hg, hq⟩ := c.gains_perform h
      exact ⟨problems, hg.problems_eq, hq⟩

theorem problems_performAll (c : Calculator) (requests : List Request) :
    ∃ problems, (c.performAll requests).journal.problems = c.journal.problems ++ problems ∧
      ((∀ r ∈ requests, r.quiet = true) → problems = []) := by
  induction requests generalizing c with
  | nil => exact ⟨[], (List.append_nil _).symm, fun _ => rfl⟩
  | cons r requests ih =>
      obtain ⟨problems, hp, hq⟩ := c.problems_perform r
      obtain ⟨more, hm, hqs⟩ := ih (c.perform r)
      refine ⟨problems ++ more, ?_, fun h => ?_⟩
      · rw [← List.append_assoc, ← hp]
        exact hm
      · obtain ⟨hr, hrs⟩ := List.forall_mem_cons.mp h
        rw [hq hr, hqs hrs]
        rfl

end Calculator

/-! ### What a journal keeps -/

/-- The journal counts its problems, has the last of them, and writes to a buffer. -/
structure Journal.Tallies (j : Journal) : Prop where
  errors : j.errors = j.problems.length
  last : j.last = j.problems.getLast?
  sink : ∃ text, j.sink = .buffer text

namespace Journal.Tallies
variable {j k : Journal} (h : j.Tallies)
include h

theorem gains {problems : List Problem} (hg : j.Gains problems k) : k.Tallies where
  errors := by rw [hg.errors_eq, hg.problems_eq, h.errors, List.length_append]
  last := by rw [hg.last_eq, hg.problems_eq, h.last, List.getLast?_append]
  sink := by
    obtain ⟨text, ht⟩ := h.sink
    exact ⟨_, by rw [hg.sink_eq, ht, Sink.printlnAll_buffer]⟩

theorem clear : j.clear.Tallies := by
  obtain ⟨text, ht⟩ := h.sink
  exact ⟨h.errors, h.last, "", by rw [Journal.clear, ht]; rfl⟩

theorem sink_clear : j.clear.sink = .buffer "" := by
  obtain ⟨text, ht⟩ := h.sink
  rw [Journal.clear, ht]
  rfl

end Journal.Tallies

theorem Calculator.tallies_performAll {c : Calculator} (h : c.journal.Tallies)
    (requests : List Request) : (c.performAll requests).journal.Tallies := by
  induction requests generalizing c with
  | nil => exact h
  | cons r requests ih =>
      refine ih ?_
      cases hr : r.empties with
      | true =>
          rw [c.journal_perform_of_empties hr]
          exact h.clear
      | false =>
          obtain ⟨problems, hg, -⟩ := c.gains_perform hr
          exact h.gains hg

/-- The journal a calculator starts with. -/
theorem Journal.tallies_ofSink (text : String) : (Journal.ofSink (.buffer text)).Tallies :=
  ⟨rfl, rfl, text, rfl⟩

/-- The sink is empty at the start, and after a request that empties it. -/
theorem Calculator.sink_performAll_of_empties {c : Calculator} (h : c.journal.Tallies)
    (hs : c.journal.sink = .buffer "") {requests : List Request}
    (he : ∀ r ∈ requests.getLast?, r.empties = true) :
    (c.performAll requests).journal.sink = .buffer "" := by
  rcases List.eq_nil_or_concat requests with rfl | ⟨front, r, rfl⟩
  · exact hs
  · rw [List.concat_eq_append] at he ⊢
    have hr : r.empties = true := he r List.getLast?_concat
    rw [performAll_append]
    show ((c.performAll front).perform r).journal.sink = _
    rw [journal_perform_of_empties _ hr]
    exact (tallies_performAll h front).sink_clear

/-- A sink that is empty at first, and not emptied again, holds the lines of what is reported since. -/
theorem Calculator.sink_performAll_since {c : Calculator} (hs : c.journal.sink = .buffer "")
    {requests : List Request} (he : ∀ r ∈ requests, r.empties = false) {since : List Problem}
    (hp : (c.performAll requests).journal.problems = c.journal.problems ++ since) :
    (c.performAll requests).journal.sink = .buffer (unlines (since.map Problem.line)) := by
  obtain ⟨problems, hg⟩ := c.gains_performAll he
  obtain rfl : since = problems := List.append_cancel_left (hp.symm.trans hg.problems_eq)
  rw [hg.sink_eq, hs, Sink.printlnAll_buffer]
  exact congrArg Sink.buffer String.empty_append

/-! ### The outcome of a run -/

theorem exitStatus_eq_zero_iff (errors : Nat) : exitStatus errors = 0 ↔ errors = 0 := by
  rw [exitStatus]
  omega

/-- A run has a line of diagnostics for each error. -/
theorem diagnostics_runCaptured (input : Input) :
    let r := runCaptured input
    r.outcome.errors = r.journal.problems.length ∧
      r.outcome.diagnostics = unlines (r.journal.problems.map Problem.line) := by
  intro r
  obtain ⟨problems, hg⟩ := Calculator.gains_calculate
    (.ofInput input .seeded (.ofSink (.buffer ""))) (.buffer "")
  have hp : r.journal.problems = problems := hg.problems_eq
  have hs : r.journal.sink = .buffer ("" ++ unlines (problems.map Problem.line)) :=
    hg.sink_eq.trans (Sink.printlnAll_buffer _ _)
  rw [hp]
  refine ⟨hg.errors_eq.trans (Nat.zero_add _), ?_⟩
  rw [Run.outcome, hs]
  exact String.empty_append

/-- **The error ledger is exact.**  After any requests, `earlier` and then `later`, the number of errors
is that of the problems reported, and the last problem is the last of them.  The later requests have
added to both; those that have nothing to report leave both as they were.  If the sink was empty behind
the earlier requests and was not emptied by the later ones, it holds the lines of what was reported
since.  The diagnostics of a run are as many lines as there are errors, each of them `error: ` and a
message, and its exit status is zero exactly if there are none. -/
theorem performAll_ledger (input : Input) (table : Table) (earlier later : List Request) :
    let start := Calculator.ofInput input table (.ofSink (.buffer ""))
    let before := start.performAll earlier
    let after := start.performAll (earlier ++ later)
    let outcome := (runCaptured input).outcome
    (∃ since : List Problem,
      after.journal.problems = before.journal.problems ++ since ∧
      after.errors = after.journal.problems.length ∧
      after.journal.last = after.journal.problems.getLast? ∧
      after.errors = before.errors + since.length ∧
      (∀ problem, later = [.report problem] → since = [problem]) ∧
      ((∀ r ∈ later, r.quiet = true) →
        after.errors = before.errors ∧ after.journal.last = before.journal.last) ∧
      ((∀ r ∈ earlier.getLast?, r.empties = true) → (∀ r ∈ later, r.empties = false) →
        after.journal.sink = .buffer (unlines (since.map fun p => "error: " ++ p.message)))) ∧
    (∃ problems : List Problem,
      (splitLines outcome.diagnostics.toList).map String.ofList =
        problems.map (fun p => "error: " ++ p.message) ∧
      (∀ p ∈ problems, p.message ∈ ["bad token", "primary expected", "')' expected",
        "divide by zero", "too many arguments"]) ∧
      outcome.diagnostics = unlines (problems.map fun p => "error: " ++ p.message) ∧
      outcome.errors = problems.length) ∧
    (outcome.exitStatus = 0 ↔ outcome.diagnostics = "") ∧
    (outcome.diagnostics ≠ "" → outcome.exitStatus = min outcome.errors 255) := by
  intro start before after outcome
  have hstart : start.journal.Tallies := Journal.tallies_ofSink ""
  have hafter : after = before.performAll later := start.performAll_append earlier later
  have hb : before.journal.Tallies := Calculator.tallies_performAll hstart earlier
  have ha : after.journal.Tallies := Calculator.tallies_performAll hstart (earlier ++ later)
  refine ⟨?_, ?_, ?_, fun _ => rfl⟩
  · obtain ⟨since, hp, hq⟩ := before.problems_performAll later
    rw [← hafter] at hp
    refine ⟨since, hp, ha.errors, ha.last, ?_, ?_, fun h => ?_, fun he hl => ?_⟩
    · show after.journal.errors = before.journal.errors + _
      rw [ha.errors, hb.errors, hp, List.length_append]
    · rintro problem rfl
      have hr : after.journal.problems = before.journal.problems ++ [problem] := by
        rw [hafter]
        exact Journal.problems_report _ _
      exact List.append_cancel_left (hp.symm.trans hr)
    · rw [hq h, List.append_nil] at hp
      exact ⟨ha.errors.trans (hp ▸ hb.errors.symm), ha.last.trans (hp ▸ hb.last.symm)⟩
    · have hs : before.journal.sink = .buffer "" :=
        Calculator.sink_performAll_of_empties hstart rfl he
      rw [hafter] at hp ⊢
      exact Calculator.sink_performAll_since hs hl hp
  · obtain ⟨he, hd⟩ := diagnostics_runCaptured input
    refine ⟨(runCaptured input).journal.problems, ?_, fun p _ => ?_, hd, he⟩
    · rw [show outcome.diagnostics = _ from hd]
      exact splitLines_problems _
    · cases p <;> simp [Problem.message]
  · obtain ⟨he, hd⟩ := diagnostics_runCaptured input
    rw [show outcome.diagnostics = _ from hd, unlines_eq_empty_iff, List.map_eq_nil_iff,
      ← List.length_eq_zero_iff, ← he]
    exact exitStatus_eq_zero_iff _

end DeskCalculator

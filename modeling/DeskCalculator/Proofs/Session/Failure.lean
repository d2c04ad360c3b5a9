import DeskCalculator.Proofs.Lexer.Failure
import DeskCalculator.Proofs.Session.Chunking

/-!
# Sessions — A read that fails

A session whose reader fails goes side by side with one over an input that holds the whole lines
before the failure and then ends (`lockstep_trails`).  Both evaluate the same statements from the same
tokens.  The failure is noted once, as a warning between two of the events, when the other session
finds the end of its input (`Journal.Adds`); from there on the reader is left alone.

**Whole lines survive a failure** (`run_of_failure`).  A run over a reader that fails has the outcome
of a run over the whole lines before the failure.  The bytes of an open line are taken from the reader
too, but they are lost; so a failure is the end of the input only where a line has ended
(`run_of_failure_at_line_end`), and `1+2` before a failure is not evaluated (`open_line_lost`).
-/

namespace DeskCalculator
open Chunk (newline)

namespace Journal

theorem eventsFrom_note (j : Journal) (event : Event) (level : Level) :
    (j.note event).eventsFrom level =
      j.eventsFrom level ++ [event].filter fun event => level.rank ≤ event.level.rank := by
  rw [eventsFrom, note, Array.toList_push, List.filter_append]
  rfl

/-- Nothing that is noted is a warning. -/
def Quiet (j : Journal) : Prop := j.eventsFrom .warn = []

theorem Quiet.note {j : Journal} (h : j.Quiet) {event : Event} (he : event.level ≠ .warn) :
    (j.note event).Quiet := by
  rw [Quiet, eventsFrom_note, h, List.nil_append]
  cases hl : event.level <;> simp_all [Level.rank]

theorem Quiet.fetched {j : Journal} (h : j.Quiet) (token : Token) :
    (j.note (.fetched token)).Quiet := h.note nofun

theorem Quiet.report {j : Journal} (h : j.Quiet) (problem : Problem) :
    (j.report problem).Quiet := by
  have hn : (j.note (.reported problem (j.errors + 1))).Quiet := h.note nofun
  exact hn

theorem Quiet.check {j : Journal} (h : j.Quiet) (kind : Kind) : (Lexer.check kind j).Quiet := by
  cases kind with
  | bad found => exact h.report _
  | _ => exact h

/-- `k` is `j` with one event put in. -/
structure Adds (event : Event) (j k : Journal) : Prop where
  errors : k.errors = j.errors
  last : k.last = j.last
  sink : k.sink = j.sink
  events : ∃ before after, j.events.toList = before ++ after ∧
    k.events.toList = before ++ event :: after

namespace Adds
variable {event : Event} {j k : Journal}

theorem of_note (event : Event) (j : Journal) : Adds event j (j.note event) :=
  ⟨rfl, rfl, rfl, j.events.toList, [], (List.append_nil _).symm, Array.toList_push⟩

theorem note (h : Adds event j k) (next : Event) : Adds event (j.note next) (k.note next) where
  errors := h.errors
  last := h.last
  sink := h.sink
  events := by
    obtain ⟨before, after, hj, hk⟩ := h.events
    refine ⟨before, after ++ [next], ?_, ?_⟩
    · rw [Journal.note, Array.toList_push, hj, List.append_assoc]
    · rw [Journal.note, Array.toList_push, hk, List.append_assoc]
      rfl

theorem report (h : Adds event j k) (problem : Problem) :
    Adds event (j.report problem) (k.report problem) where
  errors := congrArg (· + 1) h.errors
  last := rfl
  sink := congrArg (·.println problem.line) h.sink
  events := by
    have hn := (h.note (.reported problem (j.errors + 1))).events
    rw [Journal.report, Journal.report, h.errors]
    exact hn

/-- In a journal that is quiet, the event is the only warning. -/
theorem eventsFrom (h : Adds event j k) (hj : j.Quiet) (he : event.level = .warn) :
    k.eventsFrom .warn = [event] := by
  obtain ⟨before, after, hb, hk⟩ := h.events
  rw [Quiet, Journal.eventsFrom, hb, List.filter_append, List.append_eq_nil_iff] at hj
  rw [Journal.eventsFrom, hk, List.filter_append, hj.1, List.filter_cons_of_pos (by rw [he]; rfl),
    hj.2]
  rfl

end Adds

end Journal

namespace Calculator
open Lexer (ToFail Failed)

/-- The reader of `c` fails, and `d` does what `c` does over an input that holds the whole lines before
the failure.  As long as `d` has not found the end of its input they differ in their inputs only; from
there on, `c` has noted the failure. -/
inductive Trails (message : String) (later : List Chunk) (lines total : Nat) :
    Calculator → Calculator → Prop where
  | before {c : Calculator} {i : Input} : c.lexer.ToFail message later lines total i →
      c.journal.Quiet → Trails message later lines total c (c.onInput i)
  | behind {c : Calculator} {i : Input} {j : Journal} : c.lexer.Failed later total → j.Quiet →
      j.Adds (.readFailed message (UInt32.ofNat lines)) c.journal →
      Trails message later lines total c ⟨c.lexer.onInput i, c.table, j⟩

section
variable {message : String} {later : List Chunk} {lines total : Nat} {c d : Calculator}

theorem Trails.advance (h : Trails message later lines total c d) :
    Trails message later lines total c.advance d.advance := by
  cases h with
  | @before i h hq =>
      rcases Lexer.next_toFail h c.journal with ⟨i', hn, hj, hs⟩ | ⟨i', hn, hj, hs⟩
      · have he : (c.onInput i).advance = c.advance.onInput i' := by
          simp only [Calculator.advance, onInput, hn]
        have hq' : c.advance.journal.Quiet := by
          rw [show c.advance.journal = _ from hj]
          exact (hq.check _).fetched _
        exact he ▸ .before hs hq'
      · -- `d` has found the end, and `c` has failed
        have he : (c.onInput i).advance = ⟨c.advance.lexer.onInput i', c.advance.table,
            c.journal.note (.fetched c.advance.lexer.current)⟩ := by
          simp only [Calculator.advance, onInput, hn]
        have ha : (c.journal.note (.fetched c.advance.lexer.current)).Adds
            (.readFailed message (UInt32.ofNat lines)) c.advance.journal := by
          rw [show c.advance.journal = _ from hj]
          exact (Journal.Adds.of_note _ _).note _
        exact he ▸ .behind hs (hq.fetched _) ha
  | @behind i j h hq ha =>
      have hc : c.advance = ⟨c.lexer, c.table, c.journal.note (.fetched c.lexer.current)⟩ := by
        simp only [Calculator.advance, Lexer.next_of_rests h.rests]
      have hd : Calculator.advance ⟨c.lexer.onInput i, c.table, j⟩ =
          ⟨c.lexer.onInput i, c.table, j.note (.fetched c.lexer.current)⟩ := by
        simp only [Calculator.advance, Lexer.next_of_rests (h.rests.onInput i)]
        rfl
      rw [hc, hd]
      exact .behind (c := ⟨c.lexer, c.table, _⟩) h (hq.fetched _) (ha.note _)

end

theorem lockstep_trails (message : String) (later : List Chunk) (lines total : Nat) :
    Lockstep (Trails message later lines total) where
  kind
    | .before .. | .behind .. => rfl
  table
    | .before .. | .behind .. => rfl
  errors
    | .before .. => rfl
    | .behind _ _ h => h.errors.symm
  report
    | .before h hq, problem => .before h (hq.report problem)
    | .behind h hq ha, problem => .behind h (hq.report problem) (ha.report problem)
  withTable
    | .before h hq, _ => .before h hq
    | .behind h hq ha, _ => .behind h hq ha
  evaluated
    | .before h hq, _, _ => .before h (hq.note nofun)
    | .behind h hq ha, _, _ => .behind h (hq.note nofun) (ha.note _)
  fetch h := h.advance
  exhausted
    | .before .. | .behind .. => rfl

end Calculator

/-- A run over a reader that fails, and one over the whole lines before the failure. -/
theorem runCaptured_of_breaks {i clean : Input} {bytes : List UInt8} {message : String}
    {later : List Chunk} (hb : i.reader.Breaks bytes message later)
    (hc : clean.reader.Holds (wholeLines newline bytes)) :
    (runCaptured i).outcome = (runCaptured clean).outcome ∧ (runCaptured clean).journal.Quiet ∧
      (runCaptured clean).journal.Adds
        (.readFailed message (UInt32.ofNat (bytes.count newline))) (runCaptured i).journal ∧
      (runCaptured i).input.reader = ⟨later, i.reader.consumed + bytes.length⟩ := by
  have ht : (Lexer.ofInput i).ToFail message later (bytes.count newline)
      (i.reader.consumed + bytes.length) clean :=
    ⟨rfl, bytes, hb, hc, UInt32.zero_add _, rfl⟩
  obtain ⟨n, c, d, output, hr, hx, hf, hf'⟩ :=
    (Calculator.lockstep_trails message later (bytes.count newline)
      (i.reader.consumed + bytes.length)).finish
      (s := ⟨0, .ofInput i .seeded (.ofSink (.buffer "")), .buffer ""⟩)
      (t := ⟨0, .ofInput clean .seeded (.ofSink (.buffer "")), .buffer ""⟩) (.before ht rfl) rfl
  rw [runCaptured_of_finish hf, runCaptured_of_finish hf']
  cases hr with
  | before h _ => exact absurd (h.exhausted.symm.trans hx) nofun
  | behind h hq ha =>
      refine ⟨?_, hq.note nofun, ?_, h.reader⟩
      · simp only [Run.outcome, Journal.note, ha.sink, ha.errors]
      · have hn := ha.note (.finished (0 + n) c.errors)
        rwa [show c.errors = _ from ha.errors] at hn ⊢

theorem breaks_of_plain {chunks : List Chunk} (h : ∀ chunk ∈ chunks, chunk.Plain) (message : String)
    (later : List Chunk) (consumed : Nat) :
    Reader.Breaks ⟨chunks ++ .failure message :: later, consumed⟩ (Chunk.content chunks) message
      later :=
  ⟨chunks, rfl, h, rfl⟩

/-- **Whole lines survive a failure.**  A run whose reader fails has the outcome of every run over the
whole lines before the failure: the longest part of the bytes that is empty or ends with a newline.
Its events are the events of such a run, with one warning put in, the only one, which has the number
of these lines.  All bytes before the failure are consumed, and nothing behind it. -/
theorem run_of_failure {chunks : List Chunk} (h : ∀ chunk ∈ chunks, chunk.Plain) (message : String)
    (later : List Chunk) (hold : Hold) (consumed : Nat) :
    let bytes := Chunk.content chunks
    let whole := wholeLines newline bytes
    let failing := runCaptured ⟨hold, ⟨chunks ++ .failure message :: later, consumed⟩⟩
    let warning := Event.readFailed message (UInt32.ofNat (bytes.count newline))
    (whole <+: bytes ∧ (whole = [] ∨ whole.getLast? = some newline)) ∧
      (∀ part, part <+: bytes → part = [] ∨ part.getLast? = some newline → part <+: whole) ∧
      (∀ clean : Input, clean.reader.Holds whole →
        failing.outcome = (runCaptured clean).outcome ∧
          (runCaptured clean).journal.eventsFrom .warn = [] ∧
          ∃ before after, (runCaptured clean).journal.events.toList = before ++ after ∧
            failing.journal.events.toList = before ++ warning :: after) ∧
      failing.journal.eventsFrom .warn = [warning] ∧
      failing.input.reader = ⟨later, consumed + bytes.length⟩ := by
  intro bytes whole failing warning
  have hb := breaks_of_plain h message later consumed
  have hw : (Input.mk .owned (.ofBytes whole)).reader.Holds whole := Reader.holds_ofBytes whole
  obtain ⟨-, hq, ha, hr⟩ := runCaptured_of_breaks (i := ⟨hold, ⟨_, _⟩⟩) hb hw
  refine ⟨⟨isPrefix_wholeLines newline bytes, wholeLines_ends newline bytes⟩,
    fun part hp he => prefix_wholeLines hp he, fun clean hc => ?_, ha.eventsFrom hq rfl, hr⟩
  obtain ⟨ho, hq, ha, -⟩ := runCaptured_of_breaks (i := ⟨hold, ⟨_, _⟩⟩) hb hc
  exact ⟨ho, hq, ha.events⟩

/-- Two lines, the first cut in two, and an open one, before a failure that the reader gets over. -/
def failingDelivery : List Chunk :=
  [.interrupted, .bytes [0x31, 0x2B], .interrupted, .bytes [0x32, 0x0A, 0x33, 0x2F, 0x30, 0x0A, 0x34]]

theorem run_of_failingDelivery :
    let failing := runCaptured
      ⟨.owned, ⟨failingDelivery ++ .failure "lost" :: [.bytes [0x35, 0x0A]], 0⟩⟩
    (∀ chunk ∈ failingDelivery, chunk.Plain) ∧
      failing.outcome = runSource "1+2\n3/0\n" ∧
      (runSource "1+2\n3/0\n").output = "3\n1\n" ∧
      failing.journal.eventsFrom .warn = [.readFailed "lost" 2] ∧
      failing.input.reader = ⟨[.bytes [0x35, 0x0A]], 9⟩ := by
  intro failing
  have hp : ∀ chunk ∈ failingDelivery, chunk.Plain := by simp [failingDelivery, Chunk.Plain]
  obtain ⟨-, -, ho, hw, hr⟩ := run_of_failure hp "lost" [.bytes [0x35, 0x0A]] .owned 0
  have ht : wholeLines newline (Chunk.content failingDelivery) =
      Utf8.encode "1+2\n3/0\n".toList := by decide +kernel
  have hc : (Input.ofString "1+2\n3/0\n").reader.Holds
      (wholeLines newline (Chunk.content failingDelivery)) := ht ▸ Reader.holds_ofString _
  exact ⟨hp, (ho _ hc).1, by decide +kernel, hw, hr⟩

/-! ### The end of the input -/

/-- Behind a newline, or before the first byte, a failure is the end of the input. -/
theorem run_of_failure_at_line_end {chunks : List Chunk} (h : ∀ chunk ∈ chunks, chunk.Plain)
    (he : Chunk.content chunks = [] ∨ (Chunk.content chunks).getLast? = some newline)
    (message : String) (later : List Chunk) (hold : Hold) (consumed : Nat) :
    (runCaptured ⟨hold, ⟨chunks ++ .failure message :: later, consumed⟩⟩).outcome =
      (runCaptured ⟨hold, ⟨chunks, consumed⟩⟩).outcome := by
  refine (runCaptured_of_breaks (breaks_of_plain h message later consumed) ?_).1
  rw [wholeLines_of_ends he]
  exact ⟨chunks, [], (List.append_nil chunks).symm, h, .inl rfl, rfl⟩

theorem run_of_failure_behind_sum :
    (∀ chunk ∈ [Chunk.bytes [0x31, 0x2B], .bytes [0x32, 0x0A]], chunk.Plain) ∧
      (runCaptured ⟨.owned, ⟨[.bytes [0x31, 0x2B], .bytes [0x32, 0x0A]] ++
        .failure "lost" :: [], 0⟩⟩).outcome.output = "3\n" := by
  have hp : ∀ chunk ∈ [Chunk.bytes [0x31, 0x2B], .bytes [0x32, 0x0A]], chunk.Plain := by
    simp [Chunk.Plain]
  refine ⟨hp, ?_⟩
  rw [run_of_failure_at_line_end hp (.inr rfl) "lost" [] .owned 0]
  decide +kernel

/-- The sum `1+2` is evaluated at the end of the input, and lost before a failure. -/
theorem open_line_lost :
    ¬ ∀ (chunks : List Chunk) (message : String), (∀ chunk ∈ chunks, chunk.Plain) →
      (runCaptured ⟨.owned, ⟨chunks ++ [.failure message], 0⟩⟩).outcome =
        (runCaptured ⟨.owned, ⟨chunks, 0⟩⟩).outcome := by
  intro h
  have hp : ∀ chunk ∈ [Chunk.bytes [0x31, 0x2B, 0x32]], chunk.Plain := by simp [Chunk.Plain]
  exact absurd (h _ "lost" hp) (by decide +kernel)

end DeskCalculator

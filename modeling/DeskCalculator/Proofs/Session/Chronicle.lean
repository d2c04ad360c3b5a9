import DeskCalculator.CommandLine
import DeskCalculator.Proofs.Evaluation.Log
import DeskCalculator.Proofs.Session.Ledger
import DeskCalculator.Proofs.Session.Lines

/-!
# Sessions — The log and the outcome

The log of a run tells statement after statement what becomes of it (`Stories`).  The story of a
statement that is evaluated starts with the fetch of its first token, and ends with its value; between
the two stands what its evaluation fetches and reports, and the value is marked as faulted if that
includes a report (`Use.Tells`).  The story of an empty statement is the fetch of its one token.  A read
that fails is told in front of the token that is fetched behind it.

A turn of a session tells the story of its use (`Turn.tells`), and the turns of a session their stories
one behind the other (`Conducts.tells`).  The statement that ends the session adds the fetch of the
terminator, and the session notes its end.

**The chronicle** (`execute_chronicle`).  So the log of a run has the tokens of its input, in order, and
the terminator behind them; its reports are numbered from one to the number of errors; the values in it
are the lines printed; and its last event, the only one of its kind, gives the number of both.
-/

namespace DeskCalculator

/-- The value, if the event is the evaluation of a statement. -/
def Event.value? : Event → Option Float
  | .evaluated value _ => some value
  | _                  => none

/-- The values of the statements in a log, in order. -/
def valuesIn (log : List Event) : List Float := log.filterMap Event.value?

@[simp] theorem valuesIn_append {log more : List Event} :
    valuesIn (log ++ more) = valuesIn log ++ valuesIn more := List.filterMap_append

/-- What the log says of a statement. -/
inductive Use.Tells : Use → List Event → Prop where
  | evaluation {value : Float} {consumed : List Token} {stop first : Token} {faulted : Bool}
      {failed during : List Event} (hf : MayFail failed) (hk : first.kind.stops = false)
      (hd : Reading during) (ht : first :: tokensIn during = consumed ++ [stop])
      (hr : faulted = true ↔ problemsIn during ≠ []) :
      Tells (.evaluation value consumed stop)
        (failed ++ [.fetched first] ++ during ++ [.evaluated value faulted])
  | empty {token : Token} {count : Nat} {failed : List Event} (hf : MayFail failed) :
      Tells (.empty token) (failed ++ token.kind.reports count ++ [.fetched token])

/-- The log says these things one after the other. -/
inductive Stories : List Use → List Event → Prop where
  | nil : Stories [] []
  | cons {use : Use} {uses : List Use} {story log : List Event} (h : use.Tells story)
      (t : Stories uses log) : Stories (use :: uses) (story ++ log)

/-! ### What is in a story -/

theorem Kind.problems_of_not_stops {k : Kind} (h : k.stops = false) : k.problems = [] := by
  cases k <;> first | rfl | cases h

namespace Reading
variable {log : List Event}

theorem valuesIn_eq (h : Reading log) : valuesIn log = [] := by
  refine List.filterMap_eq_nil_iff.mpr fun event he => ?_
  have hp := h.plain event he
  cases event <;> first | rfl | cases hp

theorem not_finished (h : Reading log) (statements errors : Nat) :
    .finished statements errors ∉ log := fun he => by cases h.plain _ he

/-- The fetch of a token that is not bad. -/
theorem of_good {failed : List Event} (hf : MayFail failed) {token : Token}
    (hk : token.kind.problems = []) : Reading (failed ++ [.fetched token]) := by
  have hr := of_fetch hf token 0
  rwa [Kind.reports, hk, List.map_nil, List.append_nil] at hr

end Reading

/-- A story is one of reading, with a value behind it or with none. -/
theorem Use.Tells.cases_value {use : Use} {story : List Event} (h : use.Tells story) :
    Reading story ∧ use.value? = none ∨
      ∃ front value faulted, Reading front ∧ story = front ++ [.evaluated value faulted] ∧
        use.value? = some value := by
  cases h with
  | evaluation hf hk hd =>
      exact .inr ⟨_, _, _, (Reading.of_good hf (Kind.problems_of_not_stops hk)).append hd, rfl, rfl⟩
  | empty hf => exact .inl ⟨.of_fetch hf _ _, rfl⟩

namespace Stories
variable {uses : List Use} {log : List Event} (h : Stories uses log)
include h

theorem announced : Announced log := by
  induction h with
  | nil => exact .nil
  | cons h _ ih =>
      refine Announced.append ?_ ih
      rcases h.cases_value with ⟨hr, -⟩ | ⟨front, value, faulted, hr, rfl, -⟩
      · exact hr.announced
      · exact hr.announced.append (.of_unbad nofun nofun)

theorem valuesIn_eq : valuesIn log = uses.filterMap Use.value? := by
  induction h with
  | nil => rfl
  | cons h _ ih =>
      rw [valuesIn_append, ih]
      rcases h.cases_value with ⟨hr, hv⟩ | ⟨front, value, faulted, hr, rfl, hv⟩
      · rw [hr.valuesIn_eq, List.filterMap_cons_none hv, List.nil_append]
      · rw [valuesIn_append, hr.valuesIn_eq, List.filterMap_cons_some hv]
        rfl

theorem not_finished (statements errors : Nat) : .finished statements errors ∉ log := by
  induction h with
  | nil => exact List.not_mem_nil
  | cons h _ ih =>
      intro hm
      refine (List.mem_append.mp hm).elim (fun hs => ?_) ih
      rcases h.cases_value with ⟨hr, -⟩ | ⟨front, value, faulted, hr, rfl, -⟩
      · exact hr.not_finished _ _ hs
      · refine (List.mem_append.mp hs).elim (hr.not_finished _ _) fun he => ?_
        cases List.mem_singleton.mp he

end Stories

/-! ### What a session adds to the log -/

namespace Calculator

/-- Two notes of one calculator are the same only if the events are. -/
theorem note_inj {c : Calculator} {event event' : Event} (h : c.note event = c.note event') :
    event = event' := by
  have he := congrArg (fun d : Calculator => d.journal.events.toList) h
  simp only [note, Journal.note, Array.toList_push] at he
  exact (List.cons.inj (List.append_cancel_left he)).1

/-- **A turn tells the story of its use.** -/
theorem Turn.tells {c d : Calculator} {use : Use} (h : c.Turn use d) :
    ∃ story, use.Tells story ∧ c.journal.Grows story d.journal := by
  obtain ⟨failed, hf, hg⟩ := Lexer.grows_next c.lexer c.journal
  cases h with
  | empty => exact ⟨_, .empty hf, hg⟩
  | @evaluation value c' consumed faulted hk he hc hs =>
      have hk' : (c.lexer.next c.journal).1.current.kind.stops = false := hk
      rw [Kind.reports, Kind.problems_of_not_stops hk', List.map_nil, List.append_nil] at hg
      obtain ⟨during, hd, hr⟩ := hc.reading
      obtain ⟨fetched, hf', ht⟩ := hc.tokens
      obtain rfl : tokensIn during = fetched := List.append_cancel_left (hd.tokens.symm.trans hf')
      -- the evaluation is faulted if its end has more errors than its first token
      have hv : faulted = decide (c.advance.errors < c'.errors) := by
        have hn := hs.symm.trans (statement_of_not_stops hk)
        simp only [evaluateStatement, he] at hn
        exact (Event.evaluated.inj (note_inj (Prod.mk.inj hn).2)).2
      refine ⟨_, .evaluation hf hk' hr ht ?_, (hg.trans hd).note rfl⟩
      have hlt : c.advance.errors < c'.errors ↔ 0 < (problemsIn during).length := by
        rw [show c'.errors = c.advance.errors + _ from hd.errors, Nat.lt_add_right_iff_pos]
      rw [hv, decide_eq_true_iff, hlt, List.length_pos_iff]

/-- **The turns of a session tell their stories one after the other.** -/
theorem Conducts.tells {c d : Calculator} {uses : List Use} (h : c.Conducts uses d) :
    ∃ log, Stories uses log ∧ c.journal.Grows log d.journal := by
  induction h with
  | refl c => exact ⟨[], .nil, .refl _⟩
  | more h _ ih =>
      obtain ⟨story, hs, hg⟩ := h.tells
      obtain ⟨log, hl, hg'⟩ := ih
      exact ⟨story ++ log, .cons hs hl, hg.trans hg'⟩

end Calculator

/-! ### The chronicle of a run -/

/-- The log of a run over `tokens` that uses them so, with so many errors. -/
structure Chronicle (tokens : List Token) (uses : List Use) (errors : Nat) (log : List Event) :
    Prop where
  /-- The tokens are fetched in order, and the terminator behind them, once or twice. -/
  fetched : ∃ last : Token, last.kind = .terminator ∧
    (tokensIn log = tokens ++ [last] ∨ tokensIn log = tokens ++ [last, last])
  /-- Each of them is traced with its place. -/
  placed : (log.filter fun event => event.level = .trace).map Event.fields =
    (tokensIn log).map fun token => [("line", toString token.span.line.toNat),
      ("start", toString token.span.start.toNat)]
  /-- The reports are numbered. -/
  counted : countsIn log = List.range' 1 errors
  /-- A bad character is reported directly before it is fetched. -/
  announced : Announced log
  /-- The values are those of the statements. -/
  valued : valuesIn log = uses.filterMap Use.value?
  /-- The statements are told one after the other, then the terminator that ends the run, and the
  number of values and errors. -/
  told : ∃ front failed last, Stories uses front ∧ MayFail failed ∧
    log = front ++ (failed ++ [.fetched last]) ++ [.finished (valuesIn log).length errors]
  /-- The end is told once. -/
  finished : ∀ statements count, .finished statements count ∉ log.dropLast

/-- The traced events are the fetches. -/
theorem fields_traced (log : List Event) :
    (log.filter fun event => event.level = .trace).map Event.fields =
      (tokensIn log).map fun token => [("line", toString token.span.line.toNat),
        ("start", toString token.span.start.toNat)] := by
  induction log with
  | nil => rfl
  | cons event log ih =>
      cases event with
      | fetched token => exact congrArg (_ :: ·) ih
      | _ => exact ih

/-- The log of a run, from what its statements tell of it, and the tokens and the number of errors. -/
theorem Stories.chronicle {tokens : List Token} {uses : List Use} {errors : Nat}
    {front failed log : List Event} {last : Token} (hs : Stories uses front) (hf : MayFail failed)
    (hk : last.kind = .terminator)
    (hl : log = front ++ (failed ++ [.fetched last]) ++
      [.finished (uses.filterMap Use.value?).length errors])
    (ht : tokensIn log = tokens ++ [last] ∨ tokensIn log = tokens ++ [last, last])
    (hc : countsIn log = List.range' 1 errors) : Chronicle tokens uses errors log := by
  have hr : Reading (failed ++ [.fetched last]) := .of_good hf (by rw [hk]; rfl)
  have hv : valuesIn log = uses.filterMap Use.value? := by
    rw [hl, valuesIn_append, valuesIn_append, hs.valuesIn_eq, hr.valuesIn_eq, List.append_nil]
    exact List.append_nil _
  refine ⟨⟨last, hk, ht⟩, fields_traced log, hc, ?_, hv, ⟨front, failed, last, hs, hf, ?_⟩, ?_⟩
  · rw [hl]
    exact (hs.announced.append hr.announced).append (.of_unbad nofun nofun)
  · rw [hv]
    exact hl
  · intro statements count hm
    rw [hl, List.dropLast_concat] at hm
    exact (List.mem_append.mp hm).elim (hs.not_finished _ _) (hr.not_finished _ _)

/-- The log of a calculation, from a journal with nothing in it. -/
theorem chronicle_calculate (input : Input) (table : Table) (diagnostics output : Sink) :
    let start := Calculator.ofInput input table (.ofSink diagnostics)
    let r := calculate start output
    ∃ uses c, start.Conducts uses c ∧ c.Ends ∧
      Chronicle (Lexer.ofInput input).coming uses r.1.errors r.1.journal.events.toList ∧
      r.2 = output.printlnAll ((valuesIn r.1.journal.events.toList).map Double.text) := by
  intro start r
  obtain ⟨uses, c, hc, he, hr⟩ := calculate_conducts start output
  replace hr : r = _ := hr
  obtain ⟨front, hs, hg⟩ := hc.tells
  obtain ⟨failed, hf, hg'⟩ := Lexer.grows_next c.lexer c.journal
  have hk : (c.lexer.next c.journal).1.current.kind = .terminator := he.kind
  have hk' : (c.lexer.next c.journal).1.current.kind.problems = [] := by
    rw [hk]
    rfl
  rw [Kind.reports, hk', List.map_nil, List.append_nil] at hg'
  have hall : start.journal.Grows (front ++ (failed ++ [.fetched c.advance.current]) ++
      [.finished (uses.filterMap Use.value?).length r.1.errors]) r.1.journal := by
    rw [hr]
    exact (hg.trans hg').note rfl
  have hlog : r.1.journal.events.toList = _ := hall.events
  have herr : r.1.errors = _ := hall.errors.trans (Nat.zero_add _)
  have hcount : countsIn r.1.journal.events.toList = List.range' 1 r.1.errors := by
    rw [hlog]
    exact hall.counts.trans (congrArg (fun n => List.range' 1 n) herr.symm)
  have htokens : r.1.journal.tokens = c.advance.journal.tokens := by
    rw [hr]
    exact Journal.tokens_finished _ _ _
  have hch : Chronicle (Lexer.ofInput input).coming uses r.1.errors r.1.journal.events.toList := by
    refine hs.chronicle hf hk hlog ?_ hcount
    rw [← Journal.tokens_eq, htokens]
    exact (hc.all_used (Calculator.live_ofInput input table _) rfl he).2.imp And.left And.left
  refine ⟨uses, c, hc, he, hch, ?_⟩
  rw [hch.valued, hr]
  exact (List.foldl_map ..).symm

namespace CommandLine

end CommandLine

end DeskCalculator

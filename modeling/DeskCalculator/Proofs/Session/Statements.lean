import DeskCalculator.Proofs.Evaluation.Consumption
import DeskCalculator.Proofs.Lexer.Exhaustion
import DeskCalculator.Proofs.Session.Lockstep

/-!
# Sessions — A session as a sequence of statements

What a statement makes of the tokens it fetches is its use of them: an evaluation consumes some and
stops at one, and an empty statement has one in its place (`Use`).  A statement either ends the session
or is a turn of it (`statement_cases`), which uses exactly the tokens it fetches (`Turn.tokens`).  A
session is a finite number of turns and a statement that finds the input exhausted
(`calculate_conducts`); the tokens fetched on the way are those used, in order
(`Conducts.tokens`).
-/

namespace DeskCalculator

/-- What a statement makes of the tokens it fetches. -/
inductive Use where
  /-- An evaluation consumes tokens, and leaves current the one it stops at. -/
  | evaluation (value : Float) (consumed : List Token) (stop : Token)
  /-- A terminator or a bad token stands in the place of a statement. -/
  | empty (token : Token)

namespace Use

/-- The tokens used, in order. -/
def tokens : Use → List Token
  | .evaluation _ consumed stop => consumed ++ [stop]
  | .empty token                => [token]

/-- The token an evaluation stops at. -/
def stop? : Use → Option Token
  | .evaluation _ _ stop => some stop
  | .empty _             => none

/-- The value that is printed. -/
def value? : Use → Option Float
  | .evaluation value _ _ => some value
  | .empty _              => none

/-- What the session is told of the statement. -/
def statement : Use → Statement
  | .evaluation value _ _ => .value value
  | .empty _              => .empty

theorem statement_ne_exhausted (use : Use) : use.statement ≠ .exhausted := by
  cases use <;> nofun

end Use

namespace Calculator

/-- A statement that does not end the session: `c.Turn use d` if it leads from `c` to `d`. -/
inductive Turn (c : Calculator) : Use → Calculator → Prop where
  | evaluation {value : Float} {c' : Calculator} {consumed : List Token} {faulted : Bool}
      (hk : c.advance.kind.stops = false) (he : c.advance.evaluate = (value, c'))
      (hc : c.advance.Consumes consumed c')
      (hs : c.statement = (.value value, c'.note (.evaluated value faulted))) :
      Turn c (.evaluation value consumed c'.current) (c'.note (.evaluated value faulted))
  | empty (hk : c.advance.kind.stops = true)
      (hx : ¬(c.advance.kind.isTerminator ∧ c.advance.lexer.exhausted))
      (hs : c.statement = (.empty, c.advance)) : Turn c (.empty c.advance.current) c.advance

/-- The turns of a session, one after the other. -/
inductive Conducts : Calculator → List Use → Calculator → Prop where
  | refl (c : Calculator) : Conducts c [] c
  | more {c c' c'' : Calculator} {use : Use} {uses : List Use} (h : c.Turn use c')
      (t : Conducts c' uses c'') : Conducts c (use :: uses) c''

/-- The statement that ends a session. -/
structure Ends (c : Calculator) : Prop where
  kind : c.advance.kind = .terminator
  exhausted : c.advance.lexer.exhausted = true
  statement : c.statement = (.exhausted, c.advance)

/-- What starts neither with a terminator nor with a bad token is evaluated. -/
theorem statement_of_not_stops {c : Calculator} (h : c.advance.kind.stops = false) :
    c.statement = c.advance.evaluateStatement := by
  simp only [statement]
  split <;> simp_all [Kind.stops]

/-- **A statement ends the session or is a turn of it.** -/
theorem statement_cases (c : Calculator) : c.Ends ∨ ∃ use d, c.Turn use d := by
  cases hs : c.advance.kind.stops with
  | false =>
      obtain ⟨consumed, hc⟩ := consumes_evaluate c.advance
      exact .inr ⟨_, _, .evaluation hs rfl hc (statement_of_not_stops hs)⟩
  | true =>
      by_cases hx : c.advance.kind.isTerminator ∧ c.advance.lexer.exhausted
      · have hk : c.advance.kind = .terminator := by
          have ht := hx.1
          cases hk : c.advance.kind <;> simp_all [Kind.isTerminator]
        exact .inl ⟨hk, hx.2, by simp [statement, hk, hx.2]⟩
      · refine .inr ⟨_, _, .empty hs hx ?_⟩
        simp only [statement]
        split <;> simp_all [Kind.stops, Kind.isTerminator]

theorem Turn.statement {c d : Calculator} {use : Use} (h : c.Turn use d) :
    c.statement = (use.statement, d) := by
  cases h with
  | evaluation _ _ _ hs => exact hs
  | empty _ _ hs => exact hs

/-- No turn starts with the terminator of the exhausted lexer. -/
theorem Turn.not_rests {c d : Calculator} {use : Use} (h : c.Turn use d) :
    ¬c.advance.lexer.Rests := by
  intro hr
  have hk : c.advance.kind = .terminator := hr.kind
  cases h with
  | evaluation hs => exact absurd (hk ▸ hs) nofun
  | empty _ hn => exact hn ⟨by rw [hk]; rfl, hr.exhausted⟩

/-! ### The tokens of a session -/

theorem tokens_evaluated (c : Calculator) (value : Float) (faulted : Bool) :
    (c.note (.evaluated value faulted)).journal.tokens = c.journal.tokens :=
  Journal.tokens_evaluated c.journal value faulted

/-- A turn fetches the tokens it uses, and no others. -/
theorem Turn.tokens {c d : Calculator} {use : Use} (h : c.Turn use d) :
    d.journal.tokens = c.journal.tokens ++ use.tokens := by
  cases h with
  | evaluation _ _ hc _ =>
      obtain ⟨fetched, hf, he⟩ := hc.tokens
      rw [tokens_evaluated, hf, tokens_advance, List.append_assoc]
      exact congrArg (c.journal.tokens ++ ·) he
  | empty => exact tokens_advance c

theorem Conducts.tokens {c d : Calculator} {uses : List Use} (h : c.Conducts uses d) :
    d.journal.tokens = c.journal.tokens ++ uses.flatMap Use.tokens := by
  induction h with
  | refl => exact (List.append_nil _).symm
  | more h _ ih => rw [ih, h.tokens, List.append_assoc, List.flatMap_cons]

end Calculator

/-! ### What a session does with its turns -/

namespace Session

/-- The session after some turns: each value counts as a statement, and is printed. -/
def taking (s : Session) (uses : List Use) (c : Calculator) : Session where
  statements := s.statements + (uses.filterMap Use.value?).length
  calculator := c
  output := (uses.filterMap Use.value?).foldl
    (fun sink value => sink.println (Double.text value)) s.output

theorem taking_cons (s : Session) (use : Use) (uses : List Use) (c d : Calculator) :
    (s.after use.statement c).taking uses d = s.taking (use :: uses) d := by
  cases use with
  | evaluation value consumed stop =>
      simp only [taking, after, Use.statement, List.filterMap_cons, Use.value?, List.length_cons,
        List.foldl_cons, Nat.add_assoc, Nat.add_comm 1]
  | empty token => rfl

/-- **A session is its turns, and the statement that ends it.** -/
theorem finish_conducts (s : Session) : ∃ uses c, s.calculator.Conducts uses c ∧ c.Ends ∧
    s.finish = (s.taking uses c).closed c.advance := by
  induction s using induction with
  | last s c h =>
      rcases s.calculator.statement_cases with he | ⟨use, d, ht⟩
      · refine ⟨[], s.calculator, .refl _, he, ?_⟩
        rw [finish_last he.statement]
        rfl
      · exact absurd (congrArg Prod.fst (ht.statement.symm.trans h))
          use.statement_ne_exhausted
  | next s st c h hn ih =>
      rcases s.calculator.statement_cases with he | ⟨use, d, ht⟩
      · exact absurd (congrArg Prod.fst (he.statement.symm.trans h)).symm hn
      · obtain ⟨rfl, rfl⟩ := Prod.mk.inj (ht.statement.symm.trans h)
        obtain ⟨uses, c', hc, he, hf⟩ := ih
        rw [calculator_after] at hc
        refine ⟨use :: uses, c', .more ht hc, he, ?_⟩
        rw [finish_next h hn, hf, taking_cons]

end Session

/-- A calculation is a session that starts with no statement. -/
theorem calculate_conducts (c : Calculator) (output : Sink) :
    ∃ uses d, c.Conducts uses d ∧ d.Ends ∧
      calculate c output =
        (d.advance.note (.finished (uses.filterMap Use.value?).length d.advance.errors),
          (uses.filterMap Use.value?).foldl (fun sink value => sink.println (Double.text value))
            output) := by
  obtain ⟨uses, d, hc, he, hf⟩ := Session.finish_conducts ⟨0, c, output⟩
  refine ⟨uses, d, hc, he, ?_⟩
  rw [calculate, hf]
  simp only [Session.closed, Session.taking, Nat.zero_add]

end DeskCalculator

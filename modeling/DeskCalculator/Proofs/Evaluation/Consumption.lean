import DeskCalculator.Proofs.Evaluation.Passes
import DeskCalculator.Proofs.Evaluation.Rules
import DeskCalculator.Proofs.Lexer.Tokens

/-!
# Evaluation — What an evaluation consumes

An evaluation does three things: it fetches past a token it takes, it reports a problem of its own,
and it writes the table.  `c.Consumes consumed c'` says that such steps lead from `c` to `c'`, and that
`consumed` are the tokens fetched past, in order.  Every evaluation consists of them, whatever it is
faced with (`consumes_of_evaluates`), so what they keep is kept by every evaluation.

No terminator and no bad token is ever fetched past.  So what is consumed are the first of the tokens
before the next one of these (`Consumes.prefix_takeWhile`), and of the tokens fetched all but the last
are consumed, with the one that was current in front of them (`Consumes.tokens`).
-/

namespace DeskCalculator

/-- Whether no evaluation goes on past a token of this kind. -/
def Kind.stops : Kind → Bool
  | .terminator | .bad _ => true
  | _                    => false

theorem Kind.stops_of_isTerminator {k : Kind} (h : k.isTerminator = true) : k.stops = true := by
  cases k <;> first | rfl | cases h

/-- Whether the problem is a bad token. -/
def Problem.isBadToken : Problem → Bool
  | .badToken _ => true
  | _           => false

theorem Kind.filter_problems (k : Kind) : k.problems.filter Problem.isBadToken = k.problems := by
  cases k <;> rfl

namespace Calculator

/-- `c'` is `c` past the tokens `consumed`, none of which stops an evaluation; on the way other
problems than bad tokens may have been reported, and the table may have changed. -/
inductive Consumes : Calculator → List Token → Calculator → Prop where
  | done (c : Calculator) : Consumes c [] c
  | fetch {c c' : Calculator} {consumed : List Token} (hk : c.kind.stops = false)
      (h : Consumes c.advance consumed c') : Consumes c (c.current :: consumed) c'
  | report {c c' : Calculator} {consumed : List Token} {problem : Problem}
      (hp : problem.isBadToken = false) (h : Consumes (c.report problem) consumed c') :
      Consumes c consumed c'
  | withTable {c c' : Calculator} {consumed : List Token} (t : Table)
      (h : Consumes (c.withTable t) consumed c') : Consumes c consumed c'

namespace Consumes

theorem trans {c c' c'' : Calculator} {consumed more : List Token} (h : c.Consumes consumed c')
    (h' : c'.Consumes more c'') : c.Consumes (consumed ++ more) c'' := by
  induction h with
  | done => exact h'
  | fetch hk _ ih => exact .fetch hk (ih h')
  | report hp _ ih => exact .report hp (ih h')
  | withTable t _ ih => exact .withTable t (ih h')

theorem of_kind {c c' : Calculator} {k : Kind} {consumed : List Token} (hk : c.kind = k)
    (hs : k.stops = false) (h : c.advance.Consumes consumed c') :
    c.Consumes (c.current :: consumed) c' :=
  .fetch (hk ▸ hs) h

theorem single {c : Calculator} {k : Kind} (hk : c.kind = k) (hs : k.stops = false) :
    c.Consumes [c.current] c.advance :=
  .of_kind hk hs (.done _)

end Consumes

/-- **An evaluation consumes tokens and does nothing else to them**: one case for each rule. -/
theorem consumes_of_evaluates {p : Part} {c c' : Calculator} {value : Float}
    (h : Evaluates p c value c') : ∃ consumed, c.Consumes consumed c' := by
  induction h with
  | number hk => exact ⟨_, .single hk rfl⟩
  | name hk _ ih | negation hk _ ih =>
      obtain ⟨l, hl⟩ := ih
      exact ⟨_, .of_kind hk rfl hl⟩
  | group hk _ hc ih =>
      obtain ⟨l, hl⟩ := ih
      exact ⟨_, .of_kind hk rfl (hl.trans (.single hc rfl))⟩
  | unclosed hk _ _ ih =>
      obtain ⟨l, hl⟩ := ih
      exact ⟨_, .of_kind hk rfl (hl.trans (.report rfl (.done _)))⟩
  | missing => exact ⟨_, .report rfl (.done _)⟩
  | assignment hk _ ih =>
      obtain ⟨l, hl⟩ := ih
      exact ⟨_, .of_kind hk rfl (hl.trans (.withTable _ (.done _)))⟩
  | reading => exact ⟨_, .withTable _ (.done _)⟩
  | times hk _ _ ihp ihf | divide hk _ _ _ ihp ihf =>
      obtain ⟨l, hl⟩ := ihp
      obtain ⟨m, hm⟩ := ihf
      exact ⟨_, .of_kind hk rfl (hl.trans hm)⟩
  | zeroDivisor hk _ _ ih =>
      obtain ⟨l, hl⟩ := ih
      exact ⟨_, .of_kind hk rfl (hl.trans (.report rfl (.done _)))⟩
  | endOfTerm | endOfSum => exact ⟨_, .done _⟩
  | term _ _ ihp ihf =>
      obtain ⟨l, hl⟩ := ihp
      obtain ⟨m, hm⟩ := ihf
      exact ⟨_, hl.trans hm⟩
  | plus hk _ _ iht ihs | minus hk _ _ iht ihs =>
      obtain ⟨l, hl⟩ := iht
      obtain ⟨m, hm⟩ := ihs
      exact ⟨_, .of_kind hk rfl (hl.trans hm)⟩
  | expression _ _ iht ihs =>
      obtain ⟨l, hl⟩ := iht
      obtain ⟨m, hm⟩ := ihs
      exact ⟨_, hl.trans hm⟩

theorem consumes_evaluate (c : Calculator) : ∃ consumed, c.Consumes consumed c.evaluate.2 :=
  consumes_of_evaluates (evaluates_evaluate c)

/-! ### What is consumed and what is fetched -/

/-- The tokens to come before the next terminator or bad token. -/
def reach (c : Calculator) : List Token := c.lexer.coming.takeWhile fun token => !token.kind.stops

/-- What is within reach are the token fetched next and those within reach from there. -/
theorem takeWhile_advance (c : Calculator) :
    ((c.advance.current :: c.advance.lexer.coming).takeWhile fun token => !token.kind.stops) =
      c.reach := by
  by_cases hx : (c.lexer.next c.journal).1.current.kind.isTerminator ∧
      (c.lexer.next c.journal).1.exhausted
  · have hs : c.advance.current.kind.stops = true := Kind.stops_of_isTerminator hx.1
    rw [reach, Lexer.coming_nil hx, List.takeWhile_nil,
      List.takeWhile_cons_of_neg (by rw [hs]; nofun)]
  · rw [reach, Lexer.coming_cons hx]
    rfl

namespace Consumes
variable {c c' : Calculator} {consumed : List Token} (h : c.Consumes consumed c')
include h

/-- The token that was current and those fetched are the ones consumed and the one now current. -/
theorem tokens : ∃ fetched, c'.journal.tokens = c.journal.tokens ++ fetched ∧
    c.current :: fetched = consumed ++ [c'.current] := by
  induction h with
  | done => exact ⟨[], (List.append_nil _).symm, rfl⟩
  | @fetch c c' consumed _ _ ih =>
      obtain ⟨fetched, hf, hc⟩ := ih
      refine ⟨c.advance.current :: fetched, ?_, congrArg (c.current :: ·) hc⟩
      rw [hf, tokens_advance, List.append_assoc]
      rfl
  | report _ _ ih =>
      rw [Calculator.report, Journal.tokens_report] at ih
      exact ih
  | withTable _ _ ih => exact ih

/-- Nothing is consumed behind the next terminator or bad token. -/
theorem prefix_takeWhile :
    consumed <+: (c.current :: c.lexer.coming).takeWhile fun token => !token.kind.stops := by
  induction h with
  | done => exact List.nil_prefix
  | @fetch c c' consumed hk _ ih =>
      rw [takeWhile_advance] at ih
      rw [List.takeWhile_cons_of_pos (by rw [show c.current.kind.stops = false from hk]; rfl)]
      exact (List.prefix_cons_inj _).mpr ih
  | report _ _ ih => exact ih
  | withTable _ _ ih => exact ih

end Consumes

end Calculator

end DeskCalculator

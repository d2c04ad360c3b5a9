import DeskCalculator.Proofs.Evaluation.Consumption

/-!
# Evaluation — Terminators are not passed

An evaluation may have any number of parts open when it meets a terminator or a bad token:
parentheses, signs, operators that wait for an operand, assignments.  None of them fetches past that
token on the way out.  What an evaluation consumes are the first so many of the tokens ahead, and it
leaves current the one behind them (`Consumes.eq_ahead`).

**No terminator is passed** (`evaluateFrom_stops`).  But for the token that the lookahead asks for,
every fetch goes past a token that is neither a terminator nor bad.  So an evaluation ends at the first
of these, or before it.
-/

namespace DeskCalculator.Calculator

/-! ### The tokens ahead depend on the lexer alone -/

theorem lexer_skip_congr {c d : Calculator} (h : d.lexer = c.lexer) (n : Nat) :
    (d.skip n).lexer = (c.skip n).lexer := by
  induction n generalizing c d with
  | zero => exact h
  | succ n ih =>
      have ha : d.advance.lexer = c.advance.lexer :=
        calc (d.lexer.next d.journal).1
            = (c.lexer.next d.journal).1 := by rw [h]
          _ = (c.lexer.next c.journal).1 := Lexer.next_fst _ _ _
      exact ih ha

theorem mem_ahead_iff {c : Calculator} {token : Token} {n : Nat} :
    token ∈ c.ahead n ↔ ∃ m < n, (c.skip m).current = token := by
  induction n with
  | zero => exact ⟨nofun, nofun⟩
  | succ n ih =>
      rw [ahead_add, List.mem_append, ih]
      constructor
      · rintro (⟨m, hm, ht⟩ | ht)
        · exact ⟨m, Nat.lt_succ_of_lt hm, ht⟩
        · exact ⟨n, Nat.lt_succ_self n, (List.mem_singleton.mp ht).symm⟩
      · rintro ⟨m, hm, ht⟩
        rcases Nat.lt_succ_iff_lt_or_eq.mp hm with hm | rfl
        · exact .inl ⟨m, hm, ht⟩
        · exact .inr (List.mem_singleton.mpr ht.symm)

theorem ahead_congr {c d : Calculator} (h : d.lexer = c.lexer) (n : Nat) : d.ahead n = c.ahead n := by
  induction n with
  | zero => rfl
  | succ n ih =>
      rw [ahead_add, ahead_add, ih]
      exact congrArg (fun l : Lexer => c.ahead n ++ [l.current]) (lexer_skip_congr h n)

/-! ### What is consumed -/

namespace Consumes
variable {c c' : Calculator} {consumed : List Token} (h : c.Consumes consumed c')
include h

/-- The tokens consumed are the first ones ahead, and the one behind them is current. -/
theorem eq_ahead :
    consumed = c.ahead consumed.length ∧ c'.lexer = (c.skip consumed.length).lexer := by
  induction h with
  | done => exact ⟨rfl, rfl⟩
  | fetch _ _ ih => exact ⟨congrArg _ ih.1, ih.2⟩
  | @report c c' consumed problem _ _ ih =>
      have hl : (c.report problem).lexer = c.lexer := rfl
      exact ⟨ih.1.trans (ahead_congr hl _), ih.2.trans (lexer_skip_congr hl _)⟩
  | @withTable c c' consumed t _ ih =>
      have hl : (c.withTable t).lexer = c.lexer := rfl
      exact ⟨ih.1.trans (ahead_congr hl _), ih.2.trans (lexer_skip_congr hl _)⟩

theorem not_stops : ∀ token ∈ consumed, token.kind.stops = false := by
  intro token ht
  have hs := List.all_takeWhile (p := fun token : Token => !token.kind.stops)
    (l := c.current :: c.lexer.coming)
  simpa using List.all_eq_true.mp hs token (h.prefix_takeWhile.subset ht)

end Consumes

/-- The tokens fetched before an evaluation. -/
def Lookahead.fetched (lookahead : Lookahead) (c : Calculator) : List Token :=
  match lookahead with
  | .fetch   => [c.advance.current]
  | .current => []

theorem tokens_start (c : Calculator) (lookahead : Lookahead) :
    (c.start lookahead).journal.tokens = c.journal.tokens ++ lookahead.fetched c := by
  cases lookahead with
  | fetch => exact tokens_advance c
  | current => exact (List.append_nil _).symm

/-- **No terminator is passed.**  An evaluation consumes the first `n` tokens from its first one on,
and leaves current the one behind them.  None of those consumed is a terminator or a bad token, so
wherever one of these stands, the evaluation has ended there or before.  For each token consumed it
fetches one, and no more but the first, if it is asked to. -/
theorem evaluateFrom_stops (c : Calculator) (lookahead : Lookahead) :
    let first := c.start lookahead
    let last := (c.evaluateFrom lookahead).2
    ∃ n,
      first.Consumes (first.ahead n) last ∧
      (∀ m < n, (first.skip m).kind.stops = false) ∧
      (∀ m, (first.skip m).kind.stops = true → n ≤ m) ∧
      last.lexer = (first.skip n).lexer ∧
      first.ahead (n + 1) = first.ahead n ++ [last.current] ∧
      last.journal.tokens = c.journal.tokens ++ lookahead.fetched c ++ first.advance.ahead n := by
  intro first last
  obtain ⟨consumed, hc⟩ : ∃ consumed, first.Consumes consumed last := by
    rw [show last = first.evaluate.2 from congrArg Prod.snd (evaluateFrom_eq_evaluate c lookahead)]
    exact consumes_evaluate first
  obtain ⟨ha, hl⟩ := hc.eq_ahead
  have hn := hc.not_stops
  obtain ⟨fetched, hf, ht⟩ := hc.tokens
  have hlast : last.current = (first.skip consumed.length).current := congrArg Lexer.current hl
  generalize consumed.length = n at ha hl hlast
  subst ha
  have hs : ∀ m < n, (first.skip m).kind.stops = false := fun m hm =>
    hn _ (mem_ahead_iff.mpr ⟨m, hm, rfl⟩)
  refine ⟨n, hc, hs, fun m hm => Nat.le_of_not_lt fun hlt => ?_, hl, ?_, ?_⟩
  · rw [hs m hlt] at hm
    cases hm
  · rw [ahead_add, hlast]
    rfl
  · have hfetched : first.advance.ahead n = fetched := by
      rw [hlast, ← current_cons_ahead] at ht
      exact (List.cons.inj ht).2.symm
    rw [hf, tokens_start, hfetched]

/-- An assignment, a parenthesis, a product and a sign are open at the newline. -/
example :
    let last := ((ofInput (.ofString "x=(2*-\n3)") .seeded (.ofSink .silent)).evaluateFrom .fetch).2
    last.current = ⟨.terminator, 1, 6, 7⟩ ∧ last.errors = 2 := by
  decide +kernel

end DeskCalculator.Calculator

import DeskCalculator.Proofs.Evaluation.Passes
import DeskCalculator.Proofs.Evaluation.Rules
import DeskCalculator.Proofs.Grammar.Tree

/-!
# Grammar — An evaluation without errors has read a tree

Every rule that puts `faultValue` in the place of a part reports a problem, and no rule takes a
report back (`errors_le`).  So if the count of errors is the same after an evaluation as before, the
rules without a fault are all that was used, and they build a tree: the tokens passed over are the
tokens of the tree, and its value and its table are those of the evaluation (`reads_of_evaluates`).

**No false acceptance** (`exists_tree_of_errors_eq`).  Whatever the tokens ahead are, an evaluation
that leaves the count of errors unchanged has passed over exactly the tokens of some tree, has the
value and the table of that tree, and ends before a token that goes on neither with a term nor with a
sum.
-/

namespace DeskCalculator

namespace Calculator

/-- No evaluation takes a report back. -/
theorem Evaluates.errors_le {p : Part} {c c' : Calculator} {value : Float}
    (h : Evaluates p c value c') : c.errors ≤ c'.errors := by
  induction h with
  | number => exact errors_le_advance _
  | name _ _ ih | negation _ _ ih | assignment _ _ ih =>
      exact Nat.le_trans (errors_le_advance _) ih
  | group _ _ _ ih =>
      exact Nat.le_trans (errors_le_advance _) (Nat.le_trans ih (errors_le_advance _))
  | unclosed _ _ _ ih | zeroDivisor _ _ _ ih =>
      exact Nat.le_trans (errors_le_advance _) (Nat.le_trans ih (Nat.le_succ _))
  | missing => exact Nat.le_succ _
  | reading | endOfTerm | endOfSum => exact Nat.le_refl _
  | times _ _ _ ih ih' | divide _ _ _ _ ih ih' | plus _ _ _ ih ih' | minus _ _ _ ih ih' =>
      exact Nat.le_trans (errors_le_advance _) (Nat.le_trans ih ih')
  | term _ _ ih ih' | expression _ _ ih ih' => exact Nat.le_trans ih ih'

/-- A part after a fetch reports nothing if both together report nothing. -/
theorem Evaluates.errors_eq {p : Part} {c c' : Calculator} {value : Float}
    (h : Evaluates p c.advance value c') (he : c'.errors ≤ c.errors) :
    c'.errors = c.advance.errors :=
  Nat.le_antisymm (Nat.le_trans he (errors_le_advance c)) h.errors_le

/-- Two parts report nothing if both together report nothing. -/
theorem Evaluates.errors_eq_of_parts {p q : Part} {c c' c'' : Calculator} {value result : Float}
    (h : Evaluates p c value c') (h' : Evaluates q c' result c'') (he : c''.errors ≤ c.errors) :
    c'.errors = c.errors ∧ c''.errors = c'.errors :=
  ⟨Nat.le_antisymm (Nat.le_trans h'.errors_le he) h.errors_le,
    Nat.le_antisymm (Nat.le_trans he h.errors_le) h'.errors_le⟩

end Calculator

namespace Grammar
open Calculator

/-- The part was read as a tree: `c'` is past its tokens, with its table, and `value` is its value. -/
def Reads : Part → Calculator → Float → Calculator → Prop
  | .primary, c, value, c'         =>
      ∃ p : Primary, c.Passes p.kinds c' ∧ p.eval? c.table = some (value, c'.table)
  | .variableOf name, c, value, c' =>
      ∃ (p : Primary) (kinds : List Kind), p.kinds = .name name :: kinds ∧ c.Passes kinds c' ∧
        p.eval? c.table = some (value, c'.table)
  | .factors product, c, value, c' =>
      c'.kind.continuesTerm = false ∧
        ∃ fs : Factors, c.Passes fs.kinds c' ∧ fs.eval? product c.table = some (value, c'.table)
  | .term, c, value, c'            =>
      c'.kind.continuesTerm = false ∧
        ∃ t : Term, c.Passes t.kinds c' ∧ t.eval? c.table = some (value, c'.table)
  | .terms sum, c, value, c'       =>
      (c'.kind.continuesSum = false ∧
        (c.kind.continuesTerm = false → c'.kind.continuesTerm = false)) ∧
        ∃ ts : Terms, c.Passes ts.kinds c' ∧ ts.eval? sum c.table = some (value, c'.table)
  | .expression, c, value, c'      =>
      (c'.kind.continuesSum = false ∧ c'.kind.continuesTerm = false) ∧
        ∃ e : Expression, c.Passes e.kinds c' ∧ e.eval? c.table = some (value, c'.table)

theorem reads_of_evaluates {p : Part} {c c' : Calculator} {value : Float}
    (h : Evaluates p c value c') (he : c'.errors = c.errors) : Reads p c value c' := by
  induction h with
  | number hk => exact ⟨.number _, .single hk, rfl⟩
  | name hk hv ih =>
      obtain ⟨p, kinds, hp, hc, hr⟩ := ih (hv.errors_eq (Nat.le_of_eq he))
      exact ⟨p, hp ▸ .cons hk hc, hr⟩
  | negation hk hp ih =>
      obtain ⟨p, hc, hr⟩ := ih (hp.errors_eq (Nat.le_of_eq he))
      exact ⟨.negation p, .cons hk hc, Option.bind_eq_some_iff.mpr ⟨_, hr, rfl⟩⟩
  | @group c c' value hk hi hc ih =>
      obtain ⟨-, e, hp, hr⟩ := ih (hi.errors_eq (he ▸ errors_le_advance c'))
      exact ⟨.group e, .cons hk (hp.snoc hc), hr⟩
  | @unclosed c c' value hk hi hc ih =>
      -- the report of the missing parenthesis is one error more than there were before
      have hle := Nat.le_trans (errors_le_advance c) hi.errors_le
      exact absurd he (Nat.ne_of_gt (Nat.lt_succ_of_le hle))
  | missing hk => exact absurd he (Nat.succ_ne_self _)
  | assignment hk hi ih =>
      obtain ⟨-, e, hc, hr⟩ := ih (hi.errors_eq (Nat.le_of_eq he))
      exact ⟨.assignment _ e, _, rfl, .cons hk (hc.withTable _),
        Option.bind_eq_some_iff.mpr ⟨_, hr, rfl⟩⟩
  | reading hk => exact ⟨.reading _, [], rfl, .withTable (.refl _) _, rfl⟩
  | @times c _ _ _ _ _ hk hp hf ihp ihf =>
      obtain ⟨he', he⟩ := hp.errors_eq_of_parts hf (he ▸ errors_le_advance c)
      obtain ⟨p, hc, hr⟩ := ihp he'
      obtain ⟨ht, fs, hc', hr'⟩ := ihf he
      exact ⟨ht, .times p fs, .cons hk (hc.trans hc'), Option.bind_eq_some_iff.mpr ⟨_, hr, hr'⟩⟩
  | @divide c _ _ _ _ _ hk hp hz hf ihp ihf =>
      obtain ⟨he', he⟩ := hp.errors_eq_of_parts hf (he ▸ errors_le_advance c)
      obtain ⟨p, hc, hr⟩ := ihp he'
      obtain ⟨ht, fs, hc', hr'⟩ := ihf he
      exact ⟨ht, .divide p fs, .cons hk (hc.trans hc'),
        Option.bind_eq_some_iff.mpr ⟨_, hr, by simpa [hz] using hr'⟩⟩
  | @zeroDivisor c _ _ _ hk hp hz ih =>
      have hle := Nat.le_trans (errors_le_advance c) hp.errors_le
      exact absurd he (Nat.ne_of_gt (Nat.lt_succ_of_le hle))
  | endOfTerm hk => exact ⟨hk, .none, .refl _, rfl⟩
  | term hp hf ihp ihf =>
      obtain ⟨he', he⟩ := hp.errors_eq_of_parts hf (Nat.le_of_eq he)
      obtain ⟨p, hc, hr⟩ := ihp he'
      obtain ⟨ht, fs, hc', hr'⟩ := ihf he
      exact ⟨ht, .mk p fs, hc.trans hc', Option.bind_eq_some_iff.mpr ⟨_, hr, hr'⟩⟩
  | @plus c _ _ _ _ _ hk ht hs iht ihs =>
      obtain ⟨he', he⟩ := ht.errors_eq_of_parts hs (he ▸ errors_le_advance c)
      obtain ⟨hk', t, hc, hr⟩ := iht he'
      obtain ⟨⟨hn, hm⟩, ts, hc', hr'⟩ := ihs he
      exact ⟨⟨hn, fun _ => hm hk'⟩, .plus t ts, .cons hk (hc.trans hc'),
        Option.bind_eq_some_iff.mpr ⟨_, hr, hr'⟩⟩
  | @minus c _ _ _ _ _ hk ht hs iht ihs =>
      obtain ⟨he', he⟩ := ht.errors_eq_of_parts hs (he ▸ errors_le_advance c)
      obtain ⟨hk', t, hc, hr⟩ := iht he'
      obtain ⟨⟨hn, hm⟩, ts, hc', hr'⟩ := ihs he
      exact ⟨⟨hn, fun _ => hm hk'⟩, .minus t ts, .cons hk (hc.trans hc'),
        Option.bind_eq_some_iff.mpr ⟨_, hr, hr'⟩⟩
  | endOfSum hk => exact ⟨⟨hk, id⟩, .none, .refl _, rfl⟩
  | expression ht hs iht ihs =>
      obtain ⟨he', he⟩ := ht.errors_eq_of_parts hs (Nat.le_of_eq he)
      obtain ⟨hk', t, hc, hr⟩ := iht he'
      obtain ⟨⟨hn, hm⟩, ts, hc', hr'⟩ := ihs he
      exact ⟨⟨hn, hm hk'⟩, .mk t ts, hc.trans hc', Option.bind_eq_some_iff.mpr ⟨_, hr, hr'⟩⟩

/-- **No false acceptance.** -/
theorem exists_tree_of_errors_eq {lookahead : Lookahead} {c : Calculator}
    (he : (c.evaluateFrom lookahead).2.errors = c.errors) :
    ∃ e : Expression,
      e.eval? c.table =
        some ((c.evaluateFrom lookahead).1, (c.evaluateFrom lookahead).2.table) ∧
      (∃ passed fetched : List Token, passed.map Token.kind = e.kinds ∧
        (c.evaluateFrom lookahead).2.journal.tokens =
          (c.start lookahead).journal.tokens ++ fetched ∧
        (c.start lookahead).current :: fetched =
          passed ++ [(c.evaluateFrom lookahead).2.current]) ∧
      (c.evaluateFrom lookahead).2 =
        ((c.start lookahead).skip e.kinds.length).withTable (c.evaluateFrom lookahead).2.table ∧
      (c.evaluateFrom lookahead).2.kind.continuesTerm = false ∧
      (c.evaluateFrom lookahead).2.kind.continuesSum = false := by
  rw [evaluateFrom_eq_evaluate] at he ⊢
  have hs : c.errors ≤ (c.start lookahead).errors := by
    cases lookahead
    · exact errors_le_advance c
    · exact Nat.le_refl _
  have ht : (c.start lookahead).table = c.table := by cases lookahead <;> rfl
  have h := evaluates_evaluate (c.start lookahead)
  obtain ⟨⟨hn, hm⟩, e, ⟨hd, hc⟩, hr⟩ :=
    reads_of_evaluates h (Nat.le_antisymm (he ▸ hs) h.errors_le)
  rw [ht] at hr
  refine ⟨e, hr, ⟨(c.start lookahead).ahead e.kinds.length, _, hd, ?_,
    current_cons_ahead _ e.kinds.length |>.trans ?_⟩, hc, hm, hn⟩
  · rw [hc]
    exact tokens_skip _ _
  · rw [hc]
    rfl

theorem exists_tree_of_sum :
    let c := Calculator.ofInput (.ofString "-x=7-(y+1) z") .seeded (.ofSink .silent)
    (c.evaluateFrom .fetch).2.errors = c.errors ∧
      ∃ e : Expression,
        e.eval? c.table = some ((c.evaluateFrom .fetch).1, (c.evaluateFrom .fetch).2.table) := by
  intro c
  have he : (c.evaluateFrom .fetch).2.errors = c.errors := by decide +kernel
  obtain ⟨e, hr, -⟩ := exists_tree_of_errors_eq he
  exact ⟨he, e, hr⟩

end Grammar

end DeskCalculator

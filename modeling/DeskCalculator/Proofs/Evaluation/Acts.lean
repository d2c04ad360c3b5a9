import DeskCalculator.Proofs.Evaluation.Terminators
import DeskCalculator.Proofs.Table.Changes

/-!
# Evaluation — Act by act

What an evaluation does is a sequence of acts: it takes tokens, reports problems of its own, and
changes the table.  `c.Enacts acts c'` says which sequences are possible, with one rule for each thing
an evaluation may come across.  A name is read by the act directly behind it, unless a `=` follows.
Then the acts of the right-hand side come first, and the store of its value directly behind them.  A
parenthesis encloses the acts of its expression; behind them is its `)`, or the report that it is
missing.

**Every evaluation is such a sequence** (`acts_of_evaluates`), and leads where its acts lead, one
after the other (`Enacts.eq_enact`).  So whatever counts tokens, problems and changes against one
another is one induction over the rules of `Enacts`.
-/

namespace DeskCalculator

/-- Whether a token of this kind is taken on its own: no name, no `=` and no parenthesis. -/
def Kind.isPlain : Kind → Bool
  | .number _ | .plus | .minus | .times | .divide => true
  | _                                             => false

theorem Kind.ne_of_isPlain {k l : Kind} (hk : k.isPlain = true) (hl : l.isPlain = false) :
    k ≠ l := by
  rintro rfl
  exact absurd (hk.symm.trans hl) nofun

theorem Kind.stops_of_isPlain {k : Kind} (h : k.isPlain = true) : k.stops = false := by
  cases k <;> first | rfl | cases h

namespace Calculator

open Table (Change)

/-- One thing an evaluation does. -/
inductive Act where
  /-- It goes past the current token. -/
  | take (token : Token)
  | report (problem : Problem)
  | change (a : Change)

namespace Act

@[simp] def token? : Act → Option Token
  | .take token => some token
  | _           => none

@[simp] def problem? : Act → Option Problem
  | .report problem => some problem
  | _               => none

@[simp] def change? : Act → Option Change
  | .change a => some a
  | _         => none

/-- The tokens taken, in order. -/
def taken (acts : List Act) : List Token := acts.filterMap token?

/-- The kinds of the tokens taken, in order. -/
def kinds (acts : List Act) : List Kind := (taken acts).map Token.kind

/-- The problems reported, in order. -/
def reported (acts : List Act) : List Problem := acts.filterMap problem?

/-- What is done to the table, in order. -/
def changes (acts : List Act) : List Change := acts.filterMap change?

section
variable (a : Act) (acts more : List Act)

@[simp] theorem taken_cons : taken (a :: acts) = a.token?.toList ++ taken acts := by
  cases a <;> rfl

@[simp] theorem taken_append : taken (acts ++ more) = taken acts ++ taken more :=
  List.filterMap_append

@[simp] theorem kinds_cons : kinds (a :: acts) = a.token?.toList.map Token.kind ++ kinds acts := by
  cases a <;> rfl

@[simp] theorem kinds_append : kinds (acts ++ more) = kinds acts ++ kinds more := by
  rw [kinds, taken_append, List.map_append]
  rfl

@[simp] theorem reported_cons : reported (a :: acts) = a.problem?.toList ++ reported acts := by
  cases a <;> rfl

@[simp] theorem reported_append : reported (acts ++ more) = reported acts ++ reported more :=
  List.filterMap_append

@[simp] theorem changes_cons : changes (a :: acts) = a.change?.toList ++ changes acts := by
  cases a <;> rfl

@[simp] theorem changes_append : changes (acts ++ more) = changes acts ++ changes more :=
  List.filterMap_append

end

end Act

/-- The kind of a token that is taken is the kind the calculator stands at. -/
theorem kind_current (c : Calculator) : c.current.kind = c.kind := rfl

/-- The calculator after an act. -/
def act (c : Calculator) : Act → Calculator
  | .take _         => c.advance
  | .report problem => c.report problem
  | .change a       => c.withTable (c.table.change a)

/-- The calculator after some acts, one after the other. -/
def enact (c : Calculator) (acts : List Act) : Calculator := acts.foldl act c

/-- `c.Enacts acts c'`: the acts of an evaluation lead from `c` to `c'`. -/
inductive Enacts : Calculator → List Act → Calculator → Prop where
  | done (c : Calculator) : Enacts c [] c
  | plain {c c' : Calculator} {acts : List Act} (hk : c.kind.isPlain = true)
      (h : Enacts c.advance acts c') : Enacts c (.take c.current :: acts) c'
  | report {c c' : Calculator} {acts : List Act} {problem : Problem}
      (hp : problem = .primaryExpected ∨ problem = .divideByZero)
      (h : Enacts (c.report problem) acts c') : Enacts c (.report problem :: acts) c'
  | reading {c c' : Calculator} {acts : List Act} {name : String} (hk : c.kind = .name name)
      (ha : c.advance.kind ≠ .assign) (h : Enacts (c.advance.touch name) acts c') :
      Enacts c (.take c.current :: .change (.touch name) :: acts) c'
  | assignment {c d c' : Calculator} {inner acts : List Act} {name : String} {value : Float}
      (hk : c.kind = .name name) (ha : c.advance.kind = .assign)
      (he : c.advance.advance.evaluate = (value, d)) (hi : Enacts c.advance.advance inner d)
      (h : Enacts (d.store name value) acts c') :
      Enacts c (.take c.current :: .take c.advance.current ::
        (inner ++ .change (.set name value) :: acts)) c'
  | group {c d c' : Calculator} {inner acts : List Act} {value : Float} (hk : c.kind = .openParen)
      (he : c.advance.evaluate = (value, d)) (hc : d.kind = .closeParen)
      (hi : Enacts c.advance inner d) (h : Enacts d.advance acts c') :
      Enacts c (.take c.current :: (inner ++ .take d.current :: acts)) c'
  | unclosed {c d c' : Calculator} {inner acts : List Act} {value : Float}
      (hk : c.kind = .openParen) (he : c.advance.evaluate = (value, d)) (hc : d.kind ≠ .closeParen)
      (hi : Enacts c.advance inner d) (h : Enacts (d.report .unclosedParen) acts c') :
      Enacts c (.take c.current :: (inner ++ .report .unclosedParen :: acts)) c'

/-! ### Every evaluation performs acts -/

theorem Enacts.trans {c c' c'' : Calculator} {acts more : List Act} (h : c.Enacts acts c')
    (h' : c'.Enacts more c'') : c.Enacts (acts ++ more) c'' := by
  induction h with
  | done => exact h'
  | plain hk _ ih => exact .plain hk (ih h')
  | report hp _ ih => exact .report hp (ih h')
  | reading hk ha _ ih => exact .reading hk ha (ih h')
  | assignment hk ha he hi _ _ ih =>
      rw [List.cons_append, List.cons_append, List.append_assoc]
      exact .assignment hk ha he hi (ih h')
  | group hk he hc hi _ _ ih =>
      rw [List.cons_append, List.append_assoc]
      exact .group hk he hc hi (ih h')
  | unclosed hk he hc hi _ _ ih =>
      rw [List.cons_append, List.append_assoc]
      exact .unclosed hk he hc hi (ih h')

theorem Enacts.of_kind {c c' : Calculator} {k : Kind} {acts : List Act} (hk : c.kind = k)
    (hp : k.isPlain = true) (h : c.advance.Enacts acts c') :
    c.Enacts (.take c.current :: acts) c' :=
  .plain (hk ▸ hp) h

/-- The acts of a part start at its first token; a variable's is its name, which has been taken. -/
def Part.Acts : Part → Calculator → Calculator → Prop
  | .variableOf name, c, c' => ∀ b : Calculator, b.kind = .name name → b.advance = c →
      ∃ acts, b.Enacts acts c'
  | _, c, c' => ∃ acts, c.Enacts acts c'

/-- **An evaluation performs acts**: one case for each rule. -/
theorem acts_of_evaluates {p : Part} {c c' : Calculator} {value : Float}
    (h : Evaluates p c value c') : p.Acts c c' := by
  induction h with
  | number hk => exact ⟨_, .of_kind hk rfl (.done _)⟩
  | name hk _ ih => exact ih _ hk rfl
  | negation hk _ ih =>
      obtain ⟨l, hl⟩ := ih
      exact ⟨_, .of_kind hk rfl hl⟩
  | group hk he hc ih =>
      obtain ⟨l, hl⟩ := ih
      exact ⟨_, .group hk (evaluate_eq_iff.mpr he) hc hl (.done _)⟩
  | unclosed hk he hc ih =>
      obtain ⟨l, hl⟩ := ih
      exact ⟨_, .unclosed hk (evaluate_eq_iff.mpr he) hc hl (.done _)⟩
  | missing => exact ⟨_, .report (.inl rfl) (.done _)⟩
  | assignment hk he ih =>
      rintro b hn rfl
      obtain ⟨l, hl⟩ := ih
      exact ⟨_, .assignment hn hk (evaluate_eq_iff.mpr he) hl (.done _)⟩
  | reading hk =>
      rintro b hn rfl
      exact ⟨_, .reading hn hk (.done _)⟩
  | times hk _ _ ihp ihf | divide hk _ _ _ ihp ihf =>
      obtain ⟨l, hl⟩ := ihp
      obtain ⟨m, hm⟩ := ihf
      exact ⟨_, .of_kind hk rfl (hl.trans hm)⟩
  | zeroDivisor hk _ _ ih =>
      obtain ⟨l, hl⟩ := ih
      exact ⟨_, .of_kind hk rfl (hl.trans (.report (.inr rfl) (.done _)))⟩
  | endOfTerm | endOfSum => exact ⟨_, .done _⟩
  | term _ _ ihp ihf =>
      obtain ⟨l, hl⟩ := ihp
      obtain ⟨m, hm⟩ := ihf
      exact ⟨_, hl.trans hm⟩
  | plus hk _ _ iht ihs | minus hk _ _ iht ihs =>
      obtain ⟨l, hl⟩ := iht
      obtain ⟨m, hm⟩ := ihs
      exact ⟨_, .of_kind hk rfl (hl.trans hm)⟩
  | expression _ _ iht ihs =>
      obtain ⟨l, hl⟩ := iht
      obtain ⟨m, hm⟩ := ihs
      exact ⟨_, hl.trans hm⟩

/-! ### Where the acts lead -/

@[simp] theorem enact_cons (c : Calculator) (a : Act) (acts : List Act) :
    c.enact (a :: acts) = (c.act a).enact acts := rfl

@[simp] theorem enact_append (c : Calculator) (acts more : List Act) :
    c.enact (acts ++ more) = (c.enact acts).enact more := List.foldl_append

/-- The table is changed by the changes among the acts. -/
theorem table_enact (c : Calculator) (acts : List Act) :
    (c.enact acts).table = c.table.changes (Act.changes acts) := by
  induction acts generalizing c with
  | nil => rfl
  | cons a acts ih => cases a <;> exact ih _

theorem Kind.filter_not_problems (k : Kind) : k.problems.filter (!·.isBadToken) = [] := by
  cases k <;> rfl

/-- The problems reported are those among the acts, and the bad tokens fetched meanwhile. -/
theorem exists_gains_enact (c : Calculator) (acts : List Act) :
    ∃ reported, c.journal.Gains reported (c.enact acts).journal ∧
      reported.filter (!·.isBadToken) = (Act.reported acts).filter (!·.isBadToken) := by
  induction acts generalizing c with
  | nil => exact ⟨[], .refl _, rfl⟩
  | cons a acts ih =>
      obtain ⟨reported, hg, hf⟩ := ih (c.act a)
      cases a with
      | take token =>
          refine ⟨_, c.gains_advance.trans hg, ?_⟩
          rw [List.filter_append, Kind.filter_not_problems, hf]
          rfl
      | report problem =>
          have hr : c.journal.Gains [problem] (c.report problem).journal :=
            (Journal.Gains.refl _).report problem
          refine ⟨_, hr.trans hg, ?_⟩
          rw [List.filter_append, hf, ← List.filter_append]
          rfl
      | change a => exact ⟨reported, hg, hf⟩

namespace Enacts
variable {c c' : Calculator} {acts : List Act} (h : c.Enacts acts c')
include h

/-- The acts lead where they lead one after the other. -/
theorem eq_enact : c' = c.enact acts := by
  induction h with
  | done => rfl
  | plain _ _ ih | report _ _ ih | reading _ _ _ ih => exact ih
  | assignment _ _ _ _ _ ihi ih =>
      subst ihi ih
      rw [enact_cons, enact_cons, enact_append]
      rfl
  | group _ _ _ _ _ ihi ih | unclosed _ _ _ _ _ ihi ih =>
      subst ihi ih
      rw [enact_cons, enact_append]
      rfl

/-- The tokens taken are consumed. -/
theorem consumes : c.Consumes (Act.taken acts) c' := by
  induction h with
  | done => exact .done _
  | plain hk _ ih => exact .fetch (Kind.stops_of_isPlain hk) ih
  | report hp _ ih => exact .report (by rcases hp with rfl | rfl <;> rfl) ih
  | reading hk _ _ ih => exact .of_kind hk rfl (.withTable _ ih)
  | assignment hk ha _ _ _ ihi ih =>
      rw [Act.taken_cons, Act.taken_cons, Act.taken_append]
      exact .of_kind hk rfl (.of_kind ha rfl (ihi.trans (.withTable _ ih)))
  | group hk _ hc _ _ ihi ih =>
      rw [Act.taken_cons, Act.taken_append]
      exact .of_kind hk rfl (ihi.trans (.of_kind hc rfl ih))
  | unclosed hk _ _ _ _ ihi ih =>
      rw [Act.taken_cons, Act.taken_append]
      exact .of_kind hk rfl (ihi.trans (.report rfl ih))

/-- None of the problems among the acts is a bad token. -/
theorem isBadToken_eq_false : ∀ problem ∈ Act.reported acts, problem.isBadToken = false := by
  induction h with
  | done => exact fun problem hm => absurd hm List.not_mem_nil
  | plain _ _ ih | reading _ _ _ ih => exact ih
  | report hp _ ih =>
      exact List.forall_mem_cons.mpr ⟨by rcases hp with rfl | rfl <;> rfl, ih⟩
  | assignment _ _ _ _ _ ihi ih | group _ _ _ _ _ ihi ih =>
      simpa using List.forall_mem_append.mpr ⟨ihi, ih⟩
  | unclosed _ _ _ _ _ ihi ih =>
      simpa using List.forall_mem_append.mpr ⟨ihi, List.forall_mem_cons.mpr ⟨rfl, ih⟩⟩

/-- The problems reported are those among the acts, and the bad tokens fetched meanwhile. -/
theorem exists_gains : ∃ reported, c.journal.Gains reported c'.journal ∧
    reported.filter (!·.isBadToken) = Act.reported acts := by
  obtain ⟨reported, hg, hf⟩ := exists_gains_enact c acts
  rw [← h.eq_enact] at hg
  refine ⟨reported, hg, hf.trans (List.filter_eq_self.mpr fun problem hm => ?_)⟩
  rw [h.isBadToken_eq_false problem hm]
  rfl

/-- The tokens taken are the first ones ahead, and for each of them one is fetched. -/
theorem tokens : ∃ n, Act.taken acts = c.ahead n ∧
    c'.journal.tokens = c.journal.tokens ++ c.advance.ahead n := by
  obtain ⟨ha, hl⟩ := h.consumes.eq_ahead
  obtain ⟨fetched, hf, ht⟩ := h.consumes.tokens
  have hcur : c'.current = (c.skip (Act.taken acts).length).current :=
    congrArg Lexer.current hl
  refine ⟨_, ha, ?_⟩
  rw [ha, hcur, ← current_cons_ahead] at ht
  rw [hf, (List.cons.inj ht).2]

end Enacts

/-- The acts of an evaluation take the first tokens from its first one on, and fetch so many. -/
theorem enacts_evaluateFrom (c : Calculator) (lookahead : Lookahead) :
    let first := c.start lookahead
    let last := (c.evaluateFrom lookahead).2
    ∃ n acts, first.Enacts acts last ∧ Act.taken acts = first.ahead n ∧
      last.journal.tokens = c.journal.tokens ++ lookahead.fetched c ++ first.advance.ahead n := by
  intro first last
  have hlast : last = first.evaluate.2 := congrArg Prod.snd (evaluateFrom_eq_evaluate c lookahead)
  obtain ⟨acts, h⟩ : ∃ acts, first.Enacts acts last := hlast ▸ acts_of_evaluates (evaluates_evaluate _)
  obtain ⟨n, ha, ht⟩ := h.tokens
  refine ⟨n, acts, h, ha, ?_⟩
  rw [ht, tokens_start]

/-- The problems reported from the first fetch on are those among the acts, and bad tokens. -/
theorem Enacts.exists_reported {c c' : Calculator} {lookahead : Lookahead} {acts : List Act}
    (h : (c.start lookahead).Enacts acts c') :
    ∃ reported, c'.journal.problems = c.journal.problems ++ reported ∧
      reported.filter (!·.isBadToken) = Act.reported acts := by
  obtain ⟨reported, hg, hf⟩ := h.exists_gains
  cases lookahead with
  | fetch =>
      refine ⟨_, (c.gains_advance.trans hg).problems_eq, ?_⟩
      rw [List.filter_append, Kind.filter_not_problems, hf]
      rfl
  | current => exact ⟨reported, hg.problems_eq, hf⟩

end Calculator

end DeskCalculator

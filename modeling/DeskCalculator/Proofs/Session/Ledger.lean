import DeskCalculator.Proofs.Session.Statements

/-!
# Sessions — Every token is used once

The tokens fetched so far and those to come are the tokens of the text, from its first statement to
its last (`Live`): nothing is fetched twice or passed over.  When the lexer has found the end of its
input, its terminator has been fetched behind all of them (`Ended`).  An evaluation never goes on from
that terminator, so within a statement it is fetched at most once; the next statement fetches it again
and ends the session.

**The ledger** (`runCaptured_tokens`).  A run fetches the tokens of its text, and then the terminator of
the exhausted lexer, twice if the last evaluation stopped at it.  Each of the tokens is consumed by an
evaluation, or is the one at which an evaluation stops, or stands in the place of an empty statement;
and the bad ones among them are the bad tokens reported.
-/

namespace DeskCalculator
namespace Calculator

/-- The tokens fetched and those to come are `total`. -/
structure Live (total : List Token) (c : Calculator) : Prop where
  exhausted : c.lexer.exhausted = false
  tokens : c.journal.tokens ++ c.lexer.coming = total

/-- `total` has been fetched, and then the terminator that is current. -/
structure Ended (total : List Token) (c : Calculator) : Prop where
  rests : c.lexer.Rests
  tokens : c.journal.tokens = total ++ [c.current]

section
variable {total : List Token} {c d : Calculator}

theorem Live.wellFormed (h : c.Live total) : c.lexer.WellFormed :=
  fun hx => absurd (h.exhausted.symm.trans hx) nofun

theorem live_ofInput (i : Input) (table : Table) (journal : Journal) :
    (ofInput i table journal).Live (journal.tokens ++ (Lexer.ofInput i).coming) :=
  ⟨rfl, rfl⟩

/-- A fetch takes the next of the tokens to come, or finds that there is none. -/
theorem Live.advance (h : c.Live total) : c.advance.Live total ∨ c.advance.Ended total := by
  have ht := h.tokens
  rcases Lexer.coming_next h.wellFormed c.journal with ⟨hx, hc⟩ | ⟨hr, hc⟩
  · refine .inl ⟨hx, ?_⟩
    rw [hc, List.append_cons] at ht
    rw [tokens_advance]
    exact ht
  · rw [hc, List.append_nil] at ht
    refine .inr ⟨hr, ?_⟩
    rw [tokens_advance, ht]

/-- Behind the end a fetch gives the same terminator again. -/
theorem Ended.advance (h : c.Ended total) : c.advance.lexer = c.lexer ∧
    c.advance.journal.tokens = total ++ [c.current, c.current] := by
  have hl : c.advance.lexer = c.lexer := congrArg Prod.fst (Lexer.next_of_rests h.rests c.journal)
  have hc : c.advance.current = c.current := congrArg Lexer.current hl
  refine ⟨hl, ?_⟩
  rw [tokens_advance, h.tokens, hc, List.append_assoc]
  rfl

theorem Ended.stops (h : c.Ended total) : c.kind.stops = true := by
  rw [show c.kind = .terminator from h.rests.kind]
  rfl

/-- An evaluation keeps the ledger. -/
theorem Consumes.ledger {consumed : List Token} (h : c.Consumes consumed d)
    (hl : c.Live total ∨ c.Ended total) : d.Live total ∨ d.Ended total := by
  induction h with
  | done => exact hl
  | fetch hk _ ih =>
      rcases hl with hl | he
      · exact ih hl.advance
      · exact absurd (he.stops.symm.trans hk) nofun
  | @report c c' consumed problem _ _ ih =>
      have ht : (c.report problem).journal.tokens = c.journal.tokens :=
        Journal.tokens_report c.journal problem
      exact ih (hl.imp (fun h => ⟨h.exhausted, ht ▸ h.tokens⟩) fun h => ⟨h.rests, ht ▸ h.tokens⟩)
  | withTable t _ ih =>
      exact ih (hl.imp (fun h => ⟨h.exhausted, h.tokens⟩) fun h => ⟨h.rests, h.tokens⟩)

theorem ledger_evaluated (value : Float) (faulted : Bool) (hl : c.Live total ∨ c.Ended total) :
    (c.note (.evaluated value faulted)).Live total ∨
      (c.note (.evaluated value faulted)).Ended total := by
  have ht := tokens_evaluated c value faulted
  exact hl.imp (fun h => ⟨h.exhausted, ht ▸ h.tokens⟩) fun h => ⟨h.rests, ht ▸ h.tokens⟩

/-- At the end of the input there is no further turn. -/
theorem Turn.live {use : Use} (h : c.Turn use d) (hl : c.Live total ∨ c.Ended total) :
    c.Live total :=
  hl.resolve_right fun he => h.not_rests (he.advance.1 ▸ he.rests)

theorem Turn.live_advance {use : Use} (h : c.Turn use d) (hl : c.Live total) :
    c.advance.Live total :=
  hl.advance.resolve_right fun he => h.not_rests he.rests

/-- A turn keeps the ledger; it comes to the end only if it is an evaluation that stops there. -/
theorem Turn.ledger {use : Use} (h : c.Turn use d) (hl : c.Live total) :
    d.Live total ∨ d.Ended total ∧ use.stop? = some d.current := by
  have ha := h.live_advance hl
  cases h with
  | evaluation _ _ hc _ =>
      exact (ledger_evaluated _ _ (hc.ledger (.inl ha))).imp id fun he => ⟨he, rfl⟩
  | empty => exact .inl ha

/-- **The turns of a session keep the ledger**; they come to the end only with the last of them. -/
theorem Conducts.ledger {uses : List Use} (h : c.Conducts uses d) (hl : c.Live total) :
    d.Live total ∨ d.Ended total ∧ (uses.filterMap Use.stop?).getLast? = some d.current := by
  induction h with
  | refl => exact .inl hl
  | @more c c' c'' use uses h t ih =>
      rcases h.ledger hl with hl' | ⟨he, hs⟩
      · refine (ih hl').imp id fun ⟨he, hs⟩ => ⟨he, ?_⟩
        rw [List.filterMap_cons]
        cases use.stop? with
        | none => exact hs
        | some stop => rw [List.getLast?_cons, hs, Option.getD_some]
      · cases t with
        | refl =>
            refine .inr ⟨he, ?_⟩
            rw [List.filterMap_cons, hs]
            rfl
        | more h' =>
            have hx := (h'.live (.inr he)).exhausted
            exact absurd (hx.symm.trans he.rests.exhausted) nofun

end

/-! ### The bad tokens -/

/-- The bad tokens reported are those fetched. -/
def Tallied (c : Calculator) : Prop :=
  c.journal.problems.filter Problem.isBadToken =
    c.journal.tokens.flatMap fun token => token.kind.problems

namespace Tallied
variable {c d : Calculator} (h : c.Tallied)
include h

theorem advance : c.advance.Tallied := by
  rw [Tallied, problems_advance, tokens_advance, List.filter_append, Kind.filter_problems, h,
    List.flatMap_append, List.flatMap_singleton]
  rfl

theorem consumes {consumed : List Token} (hc : c.Consumes consumed d) : d.Tallied := by
  induction hc with
  | done => exact h
  | fetch _ _ ih => exact ih h.advance
  | @report c _ _ problem hp _ ih =>
      refine ih ?_
      rw [Tallied, report, Journal.problems_report, Journal.tokens_report, List.filter_append, h,
        List.filter_cons_of_neg (ne_true_of_eq_false hp), List.filter_nil, List.append_nil]
  | withTable _ _ ih => exact ih h

theorem turn {use : Use} (ht : c.Turn use d) : d.Tallied := by
  cases ht with
  | @evaluation value c' consumed faulted _ _ hc _ =>
      have hp : (c'.note (.evaluated value faulted)).journal.problems = c'.journal.problems :=
        Journal.problems_evaluated c'.journal value faulted
      rw [Tallied, hp, tokens_evaluated]
      exact h.advance.consumes hc
  | empty => exact h.advance

theorem conducts {uses : List Use} (hc : c.Conducts uses d) : d.Tallied := by
  induction hc with
  | refl => exact h
  | more ht _ ih => exact ih (h.turn ht)

end Tallied

end Calculator

/-! ### The ledger of a run -/

/-- The token the last evaluation stops at is one of those used. -/
theorem mem_tokens_of_getLast?_stop? {uses : List Use} {stop : Token}
    (h : (uses.filterMap Use.stop?).getLast? = some stop) : stop ∈ uses.flatMap Use.tokens := by
  obtain ⟨use, hm, hs⟩ := List.mem_filterMap.mp (List.mem_of_getLast? h)
  refine List.mem_flatMap.mpr ⟨use, hm, ?_⟩
  cases use with
  | evaluation value consumed token =>
      cases hs
      exact List.mem_append_right _ List.mem_cons_self
  | empty => cases hs

section
variable {total : List Token} {start c : Calculator} {uses : List Use} (hl : start.Live total)
  (hj : start.journal.tokens = []) (hc : start.Conducts uses c) (he : c.Ends)
include hl hj hc he

/-- When a session ends, all tokens have been used.  The terminator behind them is fetched by the
last statement alone, or by the last evaluation as well. -/
theorem Calculator.Conducts.all_used :
    c.advance.lexer.Rests ∧
      (c.advance.journal.tokens = total ++ [c.advance.current] ∧
          uses.flatMap Use.tokens = total ∨
        c.advance.journal.tokens = total ++ [c.advance.current, c.advance.current] ∧
          uses.flatMap Use.tokens = total ++ [c.advance.current] ∧
          (uses.filterMap Use.stop?).getLast? = some c.advance.current) := by
  have hu := hc.tokens
  rw [hj, List.nil_append] at hu
  rcases hc.ledger hl with hlive | ⟨hend, hs⟩
  · rcases hlive.advance with ha | ha
    · exact absurd (ha.exhausted.symm.trans he.exhausted) nofun
    · have ht := ha.tokens
      rw [Calculator.tokens_advance, hu] at ht
      exact ⟨ha.rests, .inl ⟨ha.tokens, List.append_cancel_right ht⟩⟩
  · obtain ⟨hx, ht⟩ := hend.advance
    have hcur : c.advance.current = c.current := congrArg Lexer.current hx
    rw [hx, hcur]
    exact ⟨hend.rests, .inr ⟨ht, hu.symm.trans hend.tokens, hs⟩⟩

end

/-- **Every token of a text is used once.**  A run consists of turns and a statement that ends it.  It
fetches the tokens of the text and the terminator of the exhausted lexer, which is none of them; that
one is fetched twice exactly if the last evaluation stopped at it.  The turns use these tokens in
order, each of them once, and the bad ones are the bad tokens reported. -/
theorem runCaptured_tokens (source : String) :
    let start := Calculator.ofInput (.ofString source) .seeded (.ofSink (.buffer ""))
    let tokens := (tokenize source).1
    let journal := (runCaptured (.ofString source)).journal
    ∃ (uses : List Use) (c : Calculator),
      let last := c.advance.current
      let stopsAtEnd := (uses.filterMap Use.stop?).getLast? = some last
      start.Conducts uses c ∧ c.Ends ∧
      journal = c.advance.journal.note
        (.finished (uses.filterMap Use.value?).length c.advance.errors) ∧
      last ∉ tokens ∧
      journal.tokens = tokens ++ (if stopsAtEnd then [last, last] else [last]) ∧
      uses.flatMap Use.tokens = tokens ++ (if stopsAtEnd then [last] else []) ∧
      journal.problems.filter Problem.isBadToken = (tokenize source).2.problems ∧
      (journal.problems.filter Problem.isBadToken).length = (tokenize source).2.errors := by
  intro start tokens journal
  obtain ⟨uses, c, hc, he, hf⟩ := calculate_conducts start (.buffer "")
  have hcoming : (Lexer.ofInput (.ofString source)).coming = tokens := Lexer.coming_eq _ _
  have hl : start.Live tokens := ⟨rfl, hcoming⟩
  obtain ⟨hr, hall⟩ := hc.all_used hl rfl he
  have hj : journal = c.advance.journal.note
      (.finished (uses.filterMap Use.value?).length c.advance.errors) := by
    show (runCaptured (.ofString source)).journal = _
    rw [runCaptured, run, hf]
    rfl
  have ht : journal.tokens = c.advance.journal.tokens := by
    rw [hj, Journal.tokens_finished]
  have hn : c.advance.current ∉ tokens := fun hm =>
    Lexer.stop_coming (Lexer.wellFormed_ofInput _) _ (hcoming ▸ hm) hr.stop
  have hp : journal.problems.filter Problem.isBadToken =
      journal.tokens.flatMap fun token => token.kind.problems := by
    have hs : start.Tallied := rfl
    rw [ht, hj, Journal.problems_finished]
    exact (hs.conducts hc).advance
  have hb : (tokenize source).2.problems = tokens.flatMap fun token => token.kind.problems :=
    Lexer.problems_tokens _ _
  have hlen : (tokenize source).2.errors = (tokenize source).2.problems.length := by
    rw [hb]
    exact (Lexer.errors_tokens _ _).trans (Nat.zero_add _)
  have hk : c.advance.current.kind.problems = [] := by
    rw [show c.advance.current.kind = .terminator from he.kind]
    rfl
  refine ⟨uses, c, hc, he, hj, hn, ?_⟩
  rw [hlen, hp, ht, hb]
  rcases hall with ⟨ha, hu⟩ | ⟨ha, hu, hs⟩
  · have hs : (uses.filterMap Use.stop?).getLast? ≠ some c.advance.current := fun hs =>
      hn (hu ▸ mem_tokens_of_getLast?_stop? hs)
    simp only [if_neg hs, ha, hu, List.flatMap_append, List.flatMap_singleton, hk, List.append_nil,
      and_self]
  · simp only [if_pos hs, ha, hu, List.flatMap_append, List.flatMap_cons, List.flatMap_nil, hk,
      List.append_nil, and_self]

end DeskCalculator

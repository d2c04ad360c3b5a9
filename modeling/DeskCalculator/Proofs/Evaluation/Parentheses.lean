import DeskCalculator.Proofs.Evaluation.Enclosure

/-!
# Evaluation — Parentheses are accounted for

An evaluation takes a `(` only at the start of a group.  Behind the acts of the group's expression it
either takes a `)`, and this is the only place where it takes one, or it reports the group as unclosed.
So the groups reported are those whose `)` was not taken (`Enacts.count_unclosed`), however the parts
are nested in one another and wherever they are abandoned.  Each report stands behind the acts of such
a group (`Enacts.accounted`), which has the value that stands for a faulty part, whatever the value of
its expression is.
-/

namespace DeskCalculator.Calculator

namespace Enacts
variable {c c' : Calculator} {acts : List Act}

/-- **Each parenthesis is closed or reported.** -/
theorem count_unclosed (h : c.Enacts acts c') :
    (Act.reported acts).count .unclosedParen + (Act.kinds acts).count .closeParen =
      (Act.kinds acts).count .openParen := by
  induction h with
  | done => rfl
  | plain hk _ ih =>
      simpa [kind_current, Kind.ne_of_isPlain hk (l := .openParen) rfl,
        Kind.ne_of_isPlain hk (l := .closeParen) rfl] using ih
  | report hp _ ih =>
      rcases hp with rfl | rfl <;> simpa using ih
  | reading hk _ _ ih => simpa [kind_current, hk] using ih
  | assignment hk ha _ _ _ ihi ih =>
      simp [kind_current, hk, ha]
      omega
  | group hk _ hc _ _ ihi ih =>
      simp [kind_current, hk, hc]
      omega
  | unclosed hk _ _ _ _ ihi ih =>
      simp [kind_current, hk]
      omega

end Enacts

/-- **Every opened parenthesis is accounted for.**  An evaluation takes no more `)` than `(`, and what
it reports as unclosed are as many parentheses as it has taken `(` without a `)`.  For each of these
reports there is a `(` among its acts where such a parenthesis starts: between the two are the acts of
its expression, no `)` follows them, and the value of the whole is the one that stands for a faulty
part. -/
theorem evaluateFrom_parentheses (c : Calculator) (lookahead : Lookahead) :
    let first := c.start lookahead
    let last := (c.evaluateFrom lookahead).2
    ∃ n acts reported,
      let kinds := (first.ahead n).map Token.kind
      first.Enacts acts last ∧
      Act.taken acts = first.ahead n ∧
      last.journal.tokens = c.journal.tokens ++ lookahead.fetched c ++ first.advance.ahead n ∧
      last.journal.problems = c.journal.problems ++ reported ∧
      reported.filter (!·.isBadToken) = Act.reported acts ∧
      kinds.count .closeParen ≤ kinds.count .openParen ∧
      reported.count .unclosedParen = kinds.count .openParen - kinds.count .closeParen ∧
      ∀ front back, acts = front ++ .report .unclosedParen :: back →
        ∃ outer inner, front = outer ++ .take (first.enact outer).current :: inner ∧
          (first.enact outer).Unclosed inner (first.enact front) := by
  intro first last
  obtain ⟨n, acts, h, ha, ht⟩ := c.enacts_evaluateFrom lookahead
  obtain ⟨reported, hp, hf⟩ := h.exists_reported
  have hk : (first.ahead n).map Token.kind = Act.kinds acts := congrArg _ ha.symm
  have hr : reported.count .unclosedParen = (Act.reported acts).count .unclosedParen := by
    rw [← hf]
    exact (List.count_filter rfl).symm
  have hc := h.count_unclosed
  refine ⟨n, acts, reported, h, ha, ht, hp, hf, ?_, ?_, fun front back hs => ?_⟩
  · rw [hk]
    omega
  · rw [hk, hr]
    omega
  · obtain ⟨outer, _, rfl, inner, rfl, hu⟩ := h.accounted front _ back hs
    rw [← enact_append] at hu
    exact ⟨outer, inner, rfl, hu⟩

end DeskCalculator.Calculator

import DeskCalculator.Proofs.Grammar.Completeness

/-!
# Grammar — Terms that are abandoned

A term `p₀ ∘ p₁ ∘ … / pₖ` whose last divisor is zero, and that is well-placed and evaluated as it is
written up to there.  The factors before the divisor are handed on to whatever follows them
(`Factors.evaluates_before`), and the zero divisor ends the term behind `pₖ`.

**A zero divisor abandons its own term** (`evaluateFrom_of_zeroDivisor`).  The term has the value one,
whatever it was before, and all that its primaries did to the table is kept; nothing behind the divisor
is looked at but the token that follows it.  If that is a sign the sum goes on with the next term, and
otherwise it ends there, also before a `*` or a `/`.
-/

namespace DeskCalculator.Grammar
open Calculator

/-- Factors of which none is an open assignment are taken in one by one, before the token that follows
them is looked at. -/
theorem Factors.evaluates_before : ∀ (fs : Factors) {c c' c'' : Calculator}
    {product product' value : Float}, fs.Placed → (∀ p ∈ fs.primaries, ¬ p.Open) →
    c.Passes fs.kinds c' → c'.kind ≠ .assign → fs.eval? product c.table = some (product', c'.table) →
    Evaluates (.factors product') c' value c'' → Evaluates (.factors product) c value c''
  | .none, c, c', c'', product, product', value, _, _, hc, _, hv, h => by
      obtain ⟨rfl, ht⟩ := Prod.mk.inj (Option.some.inj hv)
      obtain rfl := hc.eq ht.symm
      exact h
  | .times factor rest, c, c', c'', product, product', value, hp, ho, hc, hn, hv, h => by
      obtain ⟨hf, hr⟩ := List.forall_mem_cons.mp ho
      obtain ⟨⟨v, t⟩, he, hv⟩ := Option.bind_eq_some_iff.mp hv
      obtain ⟨hk, hc⟩ := hc.uncons
      obtain ⟨d, rfl, hc, hd⟩ := hc.split t
      have hfactor := factor.evaluates hp.1 hc (Factors.kind_ne_assign hd hn) (absurd · hf) he
      exact .times hk hfactor (rest.evaluates_before hp.2 hr hd hn hv h)
  | .divide divisor rest, c, c', c'', product, product', value, hp, ho, hc, hn, hv, h => by
      obtain ⟨hf, hr⟩ := List.forall_mem_cons.mp ho
      obtain ⟨⟨v, t⟩, he, hv⟩ := Option.bind_eq_some_iff.mp hv
      obtain ⟨hk, hc⟩ := hc.uncons
      obtain ⟨d, rfl, hc, hd⟩ := hc.split t
      have hdivisor := divisor.evaluates hp.1 hc (Factors.kind_ne_assign hd hn) (absurd · hf) he
      cases hz : v == 0 with
      | true => simp [hz] at hv
      | false =>
          simp only [hz, Bool.false_eq_true, if_false] at hv
          exact .divide hk hdivisor hz (rest.evaluates_before hp.2 hr hd hn hv h)

/-- A term with a divisor behind it that is zero is abandoned behind the divisor. -/
theorem Term.evaluates_abandoned {front : Term} {divisor : Primary} {c c' : Calculator}
    {product zero : Float} {t : Table} (hp : front.Placed) (hp' : divisor.Placed)
    (ho : ∀ p ∈ front.primaries ++ [divisor], ¬ p.Open)
    (hc : c.Passes (front.kinds ++ .divide :: divisor.kinds) c') (hn : c'.kind ≠ .assign)
    (hv : front.eval? c.table = some (product, t)) (hv' : divisor.eval? t = some (zero, c'.table))
    (hz : (zero == 0) = true) : Evaluates .term c faultValue (c'.report .divideByZero) := by
  obtain ⟨first, rest⟩ := front
  obtain ⟨hfront, hdivisor⟩ := List.forall_mem_append.mp ho
  obtain ⟨hfirst, hrest⟩ := List.forall_mem_cons.mp hfront
  obtain ⟨⟨v, u⟩, he, hv⟩ := Option.bind_eq_some_iff.mp hv
  rw [Term.kinds, List.append_assoc] at hc
  obtain ⟨d, rfl, hc, hd⟩ := hc.split u
  obtain ⟨d', rfl, hc', hd'⟩ := hd.split t
  obtain ⟨hk, hd'⟩ := hd'.uncons
  have hn' : d'.kind ≠ .assign := by rw [hk]; nofun
  have hlast := divisor.evaluates hp' hd' hn (absurd · (hdivisor _ List.mem_cons_self)) hv'
  exact .term (first.evaluates hp.1 hc (Factors.kind_ne_assign hc' hn') (absurd · hfirst) he)
    (rest.evaluates_before hp.2 hrest hc' hn' hv (.zeroDivisor hk hlast hz))

theorem problems_abandoned (front : Term) (divisor : Primary) :
    (front.kinds ++ .divide :: divisor.kinds).flatMap Kind.problems = [] := by
  simp [front.problems_kinds, divisor.problems_kinds, Kind.problems]

/-- **A zero divisor abandons its own term.**  A term stands first in an evaluation; no primary of it
is an assignment that is not in a parenthesis.  The factors in `front` have a value, and the divisor
behind them has the value zero, of either sign.  Then the term has the value one and ends behind the
divisor, with the table of the divisor and a division by zero reported; nothing else is reported but the
token behind the divisor, if it is bad.  The evaluation goes on from there with the sum, if that token
is a sign; before any other token it ends. -/
theorem evaluateFrom_of_zeroDivisor {lookahead : Lookahead} {c : Calculator} {front : Term}
    {divisor : Primary} {k : Kind} {product zero : Float} {t t' : Table}
    (hp : front.Placed) (hp' : divisor.Placed) (ho : ∀ p ∈ front.primaries ++ [divisor], ¬ p.Open)
    (hk : k ≠ .assign)
    (hd : (c.start lookahead).Delivers (front.kinds ++ .divide :: divisor.kinds ++ [k]))
    (hv : front.eval? c.table = some (product, t)) (hv' : divisor.eval? t = some (zero, t'))
    (hz : (zero == 0) = true) :
    let length := (front.kinds ++ .divide :: divisor.kinds).length
    let behind := ((c.start lookahead).skip length).withTable t'
    let abandoned := behind.report .divideByZero
    let next := abandoned.advance.term
    Evaluates .term (c.start lookahead) 1 abandoned ∧
      abandoned.kind = k ∧ abandoned.table = t' ∧
      abandoned.journal.problems = c.journal.problems ++ k.problems ++ [.divideByZero] ∧
      (∀ p ∈ k.problems, p.category = .lexical) ∧
      (k.continuesSum = false → c.evaluateFrom lookahead = (1, abandoned)) ∧
      (k = .plus →
        c.evaluateFrom lookahead = Part.run (.terms (1 + next.value)) next.after) ∧
      (k = .minus →
        c.evaluateFrom lookahead = Part.run (.terms (1 - next.value)) next.after) := by
  intro length behind abandoned next
  obtain ⟨hl, hb⟩ := delivers_append.mp hd
  obtain ⟨hb, -⟩ := delivers_cons.mp hb
  have ht : (c.start lookahead).table = c.table := by cases lookahead <;> rfl
  have hterm : Evaluates .term (c.start lookahead) 1 abandoned :=
    Term.evaluates_abandoned hp hp' ho ⟨hl, rfl⟩ (by rw [kind_withTable, hb]; exact hk)
      (by rw [ht]; exact hv) hv' hz
  have hkind : abandoned.kind = k := hb
  have hproblems : abandoned.journal.problems = c.journal.problems ++ k.problems ++ [.divideByZero] := by
    rw [← (problems_start_skip_of_kinds (by simp) (problems_abandoned front divisor) hd).1]
    exact Journal.problems_report _ _
  have hevaluate {value : Float} {c' : Calculator} (h : Evaluates (.terms 1) abandoned value c') :
      c.evaluateFrom lookahead = (value, c') := by
    rw [evaluateFrom_eq_evaluate]
    exact evaluate_eq_iff.mpr (.expression hterm h)
  have hnext : Evaluates .term abandoned.advance next.value next.after := evaluates_term _
  refine ⟨hterm, hkind, rfl, hproblems, Kind.category_problems, fun hs => ?_, fun hs => ?_,
    fun hs => ?_⟩
  · exact hevaluate (.endOfSum (by rw [hkind]; exact hs))
  · exact hevaluate (.plus (hkind.trans hs) hnext (evaluates_run _ _))
  · exact hevaluate (.minus (hkind.trans hs) hnext (evaluates_run _ _))

/-- In `2*(a=3)/(a-3)*b` the product is not taken up again behind the parenthesis, and `b` is not
created. -/
theorem evaluateFrom_of_zeroDifference :
    let c := Calculator.ofInput (.ofString "2*(a=3)/(a-3)*b") .seeded (.ofSink .silent)
    let front : Term := .mk (.number 2)
      (.times (.group (.mk (.mk (.assignment "a" (.mk (.mk (.number 3) .none) .none)) .none) .none))
        .none)
    let divisor : Primary :=
      .group (.mk (.mk (.reading "a") .none) (.minus (.mk (.number 3) .none) .none))
    let t := Table.seeded.set "a" 3
    front.Placed ∧ divisor.Placed ∧ (∀ p ∈ front.primaries ++ [divisor], ¬ p.Open) ∧
      (c.start .fetch).Delivers (front.kinds ++ .divide :: divisor.kinds ++ [.times]) ∧
      front.eval? c.table = some (6, t) ∧ divisor.eval? t = some (0, t) ∧
      (c.evaluateFrom .fetch).1 = 1 ∧ (c.evaluateFrom .fetch).2.kind = .times ∧
      (c.evaluateFrom .fetch).2.table = t ∧
      (c.evaluateFrom .fetch).2.journal.problems = [.divideByZero] := by
  intro c front divisor t
  have hp : front.Placed := by
    simp [front, Expression.Placed, Term.Placed, Factors.Placed, Terms.Placed, Primary.Placed,
      Expression.primaries, Term.primaries, Factors.primaries, Terms.primaries]
  have hp' : divisor.Placed := by
    simp [divisor, Expression.Placed, Term.Placed, Factors.Placed, Terms.Placed, Primary.Placed,
      Expression.primaries, Term.primaries, Factors.primaries, Terms.primaries, Primary.Open]
  have ho : ∀ p ∈ front.primaries ++ [divisor], ¬ p.Open := by
    simp [front, divisor, Term.primaries, Factors.primaries, Primary.Open]
  have hd : (c.start .fetch).Delivers (front.kinds ++ .divide :: divisor.kinds ++ [.times]) := by
    decide +kernel
  have hv : front.eval? c.table = some (6, t) := by decide +kernel
  have hv' : divisor.eval? t = some (0, t) := by decide +kernel
  obtain ⟨-, hk, ht, hproblems, -, hend, -⟩ :=
    evaluateFrom_of_zeroDivisor hp hp' ho (by decide) hd hv hv' (by decide)
  rw [hend rfl]
  exact ⟨hp, hp', ho, hd, hv, hv', rfl, hk, ht, hproblems⟩

end DeskCalculator.Grammar

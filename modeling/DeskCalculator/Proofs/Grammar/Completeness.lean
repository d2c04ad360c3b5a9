import DeskCalculator.Proofs.Evaluation.Passes
import DeskCalculator.Proofs.Evaluation.Rules
import DeskCalculator.Proofs.Grammar.Tree

/-!
# Grammar — Trees are evaluated as they are written

The evaluation decides by one token what to go on with, and it evaluates while it reads.  It takes
back the tree that the tokens were written for, part by part, as long as each part finds a token
behind it that does not go on with it: behind a factor stands no `=`, behind a term neither `*` nor
`/`, behind a sum none of the operators (`endsExpression`).  In a tree the parts see to this
themselves, with one exception.  An assignment takes all of the sum that follows it, so what stands
behind an open assignment has to end the expression, and it does where the tree is placed
(`ends_of_open`).

**Correctness on well-placed trees** (`evaluateFrom_of_placed`).  Whatever the table, and whatever
stands behind the tokens of the tree if it ends an expression, the evaluation has the value of the
tree, leaves its table and the token behind it, and reports nothing but that token, if it is bad.
-/

namespace DeskCalculator.Grammar
open Calculator

/-- Whether an expression ends before a token of this kind. -/
def endsExpression : Kind → Bool
  | .plus | .minus | .times | .divide | .assign => false
  | _                                           => true

theorem continuesTerm_of_endsExpression {k : Kind} (h : endsExpression k = true) :
    k.continuesTerm = false := by
  cases k <;> first | rfl | cases h

theorem continuesSum_of_endsExpression {k : Kind} (h : endsExpression k = true) :
    k.continuesSum = false := by
  cases k <;> first | rfl | cases h

theorem ne_assign_of_endsExpression {k : Kind} (h : endsExpression k = true) : k ≠ .assign := by
  rintro rfl
  cases h

/-! ### The last primary -/

theorem eq_nil_of_open {p : Primary} {ps : List Primary}
    (h : ∀ q ∈ (p :: ps).dropLast, ¬ q.Open) (hp : p.Open) : ps = [] := by
  cases ps with
  | nil => rfl
  | cons q ps => exact absurd hp (h p (by simp))

theorem dropLast_of_append (ps : List Primary) {qs : List Primary}
    (h : ∀ q ∈ (ps ++ qs).dropLast, ¬ q.Open) : ∀ q ∈ qs.dropLast, ¬ q.Open := by
  by_cases hq : qs = []
  · subst hq
    nofun
  · rw [List.dropLast_append_of_ne_nil hq] at h
    exact fun q hm => h q (List.mem_append_right _ hm)

/-! ### The token in front of a part

What an evaluation finds behind a part is the first token of the part that follows in the tree, or,
where that part is empty, what stands behind it. -/

theorem Factors.kind_ne_assign {fs : Factors} {c c' : Calculator} (h : c.Passes fs.kinds c')
    (hk : c'.kind ≠ .assign) : c.kind ≠ .assign := by
  cases fs with
  | none => rwa [h.eq_of_nil] at hk
  | times | divide => rw [h.uncons.1]; nofun

theorem Terms.kind_of_passes {ts : Terms} {c c' : Calculator} (h : c.Passes ts.kinds c')
    (hk : endsExpression c'.kind = true) :
    c.kind.continuesTerm = false ∧ c.kind ≠ .assign ∧
      (ts.primaries = [] → endsExpression c.kind = true) := by
  cases ts with
  | none =>
      rw [h.eq_of_nil] at hk
      exact ⟨continuesTerm_of_endsExpression hk, ne_assign_of_endsExpression hk, fun _ => hk⟩
  | plus | minus =>
      rw [h.uncons.1]
      exact ⟨rfl, nofun, fun hp => by cases Terms.primaries_eq_nil hp⟩

/-- An open assignment before the factors `fs` is the last primary, so it stands where `fs` ends. -/
theorem ends_of_open {p : Primary} {fs : Factors} {after : List Primary} {c c' : Calculator}
    (h : ∀ q ∈ (p :: fs.primaries ++ after).dropLast, ¬ q.Open) (hc : c.Passes fs.kinds c')
    (ha : after = [] → endsExpression c'.kind = true) (hp : p.Open) :
    endsExpression c.kind = true := by
  obtain ⟨hf, rfl⟩ := List.append_eq_nil_iff.mp (eq_nil_of_open h hp)
  rw [Factors.primaries_eq_nil hf] at hc
  have hk := ha rfl
  rwa [hc.eq_of_nil] at hk

/-! ### The parts of a tree

By induction on the tree, along the rules.  `after` are the primaries that follow in the same
expression: only where there are none may a part end with an open assignment. -/

mutual

theorem Primary.evaluates : ∀ (p : Primary) {c c' : Calculator} {value : Float}, p.Placed →
    c.Passes p.kinds c' → c'.kind ≠ .assign → (p.Open → endsExpression c'.kind = true) →
    p.eval? c.table = some (value, c'.table) → Evaluates .primary c value c'
  | .number _, c, c', value, _, hc, _, _, hv => by
      obtain ⟨hk, hc⟩ := hc.uncons
      obtain ⟨rfl, ht⟩ := Prod.mk.inj (Option.some.inj hv)
      obtain rfl := hc.eq ht.symm
      exact .number hk
  | .reading name, c, c', value, _, hc, hn, _, hv => by
      obtain ⟨hk, hc⟩ := hc.uncons
      obtain ⟨rfl, ht⟩ := Prod.mk.inj (Option.some.inj hv)
      have he : c' = c.advance.touch name := by
        rw [hc.eq_of_nil, ← ht]
        rfl
      subst he
      exact .name hk (.reading hn)
  | .assignment name right, c, c', value, hp, hc, _, ho, hv => by
      obtain ⟨hk, hc⟩ := hc.uncons
      obtain ⟨hk', hc⟩ := hc.uncons
      obtain ⟨⟨v, t⟩, hr, hv⟩ := Option.bind_eq_some_iff.mp hv
      obtain ⟨rfl, ht⟩ := Prod.mk.inj (Option.some.inj hv)
      -- the right-hand side leaves the table `t`, into which the value is then stored
      have he := right.evaluates hp (hc.withTable t) (ho trivial) hr
      have hs : (c'.withTable t).store name v = c' := by
        rw [store_eq_withTable, table_withTable, ht]
        rfl
      exact hs ▸ .name hk (.assignment hk' he)
  | .negation operand, c, c', value, hp, hc, hn, ho, hv => by
      obtain ⟨hk, hc⟩ := hc.uncons
      obtain ⟨⟨v, t⟩, hr, hv⟩ := Option.bind_eq_some_iff.mp hv
      obtain ⟨rfl, rfl⟩ := Prod.mk.inj (Option.some.inj hv)
      exact .negation hk (operand.evaluates hp hc hn ho hr)
  | .group inner, c, c', value, hp, hc, _, _, hv => by
      obtain ⟨hk, hc⟩ := hc.uncons
      obtain ⟨d, hd, hi, hd'⟩ := hc.split c'.table
      obtain ⟨hk', hd'⟩ := hd'.uncons
      obtain rfl := hd'.eq hd.symm
      exact .group hk (inner.evaluates hp hi (by rw [hk']; rfl) hv) hk'

theorem Factors.evaluates : ∀ (fs : Factors) {c c' : Calculator} {product value : Float}
    {after : List Primary}, fs.Placed → (∀ p ∈ (fs.primaries ++ after).dropLast, ¬ p.Open) →
    c.Passes fs.kinds c' → c'.kind.continuesTerm = false → c'.kind ≠ .assign →
    (after = [] → endsExpression c'.kind = true) →
    fs.eval? product c.table = some (value, c'.table) → Evaluates (.factors product) c value c'
  | .none, c, c', product, value, after, _, _, hc, ht, _, _, hv => by
      obtain ⟨rfl, he⟩ := Prod.mk.inj (Option.some.inj hv)
      obtain rfl := hc.eq he.symm
      exact .endOfTerm ht
  | .times factor rest, c, c', product, value, after, hp, hl, hc, ht, hn, ha, hv => by
      obtain ⟨⟨v, t⟩, hr, hv⟩ := Option.bind_eq_some_iff.mp hv
      obtain ⟨hk, hc⟩ := hc.uncons
      obtain ⟨d, rfl, hc, hd⟩ := hc.split t
      have hf := factor.evaluates hp.1 hc (Factors.kind_ne_assign hd hn)
        (ends_of_open hl hd ha) hr
      exact .times hk hf (rest.evaluates hp.2 (dropLast_of_append [factor] hl) hd ht hn ha hv)
  | .divide divisor rest, c, c', product, value, after, hp, hl, hc, ht, hn, ha, hv => by
      obtain ⟨⟨v, t⟩, hr, hv⟩ := Option.bind_eq_some_iff.mp hv
      obtain ⟨hk, hc⟩ := hc.uncons
      obtain ⟨d, rfl, hc, hd⟩ := hc.split t
      have hf := divisor.evaluates hp.1 hc (Factors.kind_ne_assign hd hn)
        (ends_of_open hl hd ha) hr
      cases hz : v == 0 with
      | true => simp [hz] at hv
      | false =>
          simp only [hz, Bool.false_eq_true, if_false] at hv
          exact .divide hk hf hz
            (rest.evaluates hp.2 (dropLast_of_append [divisor] hl) hd ht hn ha hv)

theorem Term.evaluates : ∀ (t : Term) {c c' : Calculator} {value : Float}
    {after : List Primary}, t.Placed → (∀ p ∈ (t.primaries ++ after).dropLast, ¬ p.Open) →
    c.Passes t.kinds c' → c'.kind.continuesTerm = false → c'.kind ≠ .assign →
    (after = [] → endsExpression c'.kind = true) →
    t.eval? c.table = some (value, c'.table) → Evaluates .term c value c'
  | .mk first rest, c, c', value, after, hp, hl, hc, ht, hn, ha, hv => by
      obtain ⟨⟨v, t⟩, hr, hv⟩ := Option.bind_eq_some_iff.mp hv
      obtain ⟨d, rfl, hc, hd⟩ := hc.split t
      have hf := first.evaluates hp.1 hc (Factors.kind_ne_assign hd hn)
        (ends_of_open hl hd ha) hr
      exact .term hf (rest.evaluates hp.2 (dropLast_of_append [first] hl) hd ht hn ha hv)

theorem Terms.evaluates : ∀ (ts : Terms) {c c' : Calculator} {sum value : Float}, ts.Placed →
    (∀ p ∈ ts.primaries.dropLast, ¬ p.Open) → c.Passes ts.kinds c' →
    endsExpression c'.kind = true → ts.eval? sum c.table = some (value, c'.table) →
    Evaluates (.terms sum) c value c'
  | .none, c, c', sum, value, _, _, hc, hk, hv => by
      obtain ⟨rfl, he⟩ := Prod.mk.inj (Option.some.inj hv)
      obtain rfl := hc.eq he.symm
      exact .endOfSum (continuesSum_of_endsExpression hk)
  | .plus summand rest, c, c', sum, value, hp, hl, hc, hk, hv => by
      obtain ⟨⟨v, t⟩, hr, hv⟩ := Option.bind_eq_some_iff.mp hv
      obtain ⟨hk', hc⟩ := hc.uncons
      obtain ⟨d, rfl, hc, hd⟩ := hc.split t
      obtain ⟨ht, hn, ha⟩ := Terms.kind_of_passes hd hk
      exact .plus hk' (summand.evaluates hp.1 hl hc ht hn ha hr)
        (rest.evaluates hp.2 (dropLast_of_append _ hl) hd hk hv)
  | .minus summand rest, c, c', sum, value, hp, hl, hc, hk, hv => by
      obtain ⟨⟨v, t⟩, hr, hv⟩ := Option.bind_eq_some_iff.mp hv
      obtain ⟨hk', hc⟩ := hc.uncons
      obtain ⟨d, rfl, hc, hd⟩ := hc.split t
      obtain ⟨ht, hn, ha⟩ := Terms.kind_of_passes hd hk
      exact .minus hk' (summand.evaluates hp.1 hl hc ht hn ha hr)
        (rest.evaluates hp.2 (dropLast_of_append _ hl) hd hk hv)

theorem Expression.evaluates : ∀ (e : Expression) {c c' : Calculator} {value : Float}, e.Placed →
    c.Passes e.kinds c' → endsExpression c'.kind = true →
    e.eval? c.table = some (value, c'.table) → Evaluates .expression c value c'
  | .mk first rest, c, c', value, hp, hc, hk, hv => by
      obtain ⟨⟨v, t⟩, hr, hv⟩ := Option.bind_eq_some_iff.mp hv
      obtain ⟨d, rfl, hc, hd⟩ := hc.split t
      obtain ⟨ht, hn, ha⟩ := Terms.kind_of_passes hd hk
      exact .expression (first.evaluates hp.2.1 hp.1 hc ht hn ha hr)
        (rest.evaluates hp.2.2 (dropLast_of_append _ hp.1) hd hk hv)

end

/-! ### Evaluating a statement -/

theorem problems_snoc {kinds : List Kind} (h : kinds.flatMap Kind.problems = []) (k : Kind) :
    (kinds ++ [k]).flatMap Kind.problems = k.problems := by
  simp [h]

/-- Going past tokens none of which is bad reports nothing but the token after them, if that is bad. -/
theorem problems_start_skip_of_kinds {lookahead : Lookahead} {c : Calculator} {kinds : List Kind}
    {k : Kind} (hne : kinds ≠ []) (he : kinds.flatMap Kind.problems = [])
    (hd : (c.start lookahead).Delivers (kinds ++ [k])) :
    ((c.start lookahead).skip kinds.length).journal.problems = c.journal.problems ++ k.problems ∧
      ((c.start lookahead).skip kinds.length).errors = c.errors + k.problems.length := by
  cases lookahead with
  | fetch =>
      have hs : c.skip (kinds ++ [k]).length = c.advance.skip kinds.length := by
        rw [List.length_append]
        rfl
      have hp := problems_skip hd
      have hn := errors_skip hd
      rw [hs, problems_snoc he] at hp hn
      exact ⟨hp, hn⟩
  | current =>
      -- the first of the tokens was fetched, and reported if bad, before the evaluation
      obtain ⟨first, rest, hr⟩ := List.exists_cons_of_ne_nil hne
      rw [hr, List.cons_append] at hd
      rw [hr, List.flatMap_cons, List.append_eq_nil_iff] at he
      have hs : c.skip (rest ++ [k]).length = c.skip kinds.length := by
        rw [hr, List.length_append]
        rfl
      have hp := problems_skip (delivers_cons.mp hd).2
      have hn := errors_skip (delivers_cons.mp hd).2
      simp only [start, hs, problems_snoc he.2] at hp hn
      exact ⟨hp, hn⟩

/-- Going past a tree reports nothing but the token after it, if that is bad. -/
theorem problems_start_skip {lookahead : Lookahead} {c : Calculator} {e : Expression} {k : Kind}
    (hd : (c.start lookahead).Delivers (e.kinds ++ [k])) :
    ((c.start lookahead).skip e.kinds.length).journal.problems = c.journal.problems ++ k.problems ∧
      ((c.start lookahead).skip e.kinds.length).errors = c.errors + k.problems.length :=
  problems_start_skip_of_kinds e.kinds_ne_nil e.problems_kinds hd

/-- **A well-placed tree is evaluated as it is read.** -/
theorem evaluateFrom_of_placed {lookahead : Lookahead} {c : Calculator} {e : Expression} {k : Kind}
    {value : Float} {t : Table} (hp : e.Placed) (hk : endsExpression k = true)
    (hd : (c.start lookahead).Delivers (e.kinds ++ [k])) (hv : e.eval? c.table = some (value, t)) :
    (c.evaluateFrom lookahead).1 = value ∧ (c.evaluateFrom lookahead).2.table = t ∧
      (c.evaluateFrom lookahead).2.kind = k ∧
      (c.evaluateFrom lookahead).2 = ((c.start lookahead).skip e.kinds.length).withTable t ∧
      (c.evaluateFrom lookahead).2.journal.problems = c.journal.problems ++ k.problems ∧
      (c.evaluateFrom lookahead).2.errors = c.errors + k.problems.length ∧
      ∀ p ∈ k.problems, p.category = .lexical := by
  obtain ⟨he, hl⟩ := delivers_append.mp hd
  obtain ⟨hl, -⟩ := delivers_cons.mp hl
  obtain ⟨hj, hn⟩ := problems_start_skip hd
  have ht : (c.start lookahead).table = c.table := by cases lookahead <;> rfl
  have hs : (c.start lookahead).Passes e.kinds
      (((c.start lookahead).skip e.kinds.length).withTable t) := ⟨he, rfl⟩
  have hr := e.evaluates hp hs (by rwa [kind_withTable, hl]) (by rwa [ht])
  rw [evaluateFrom_eq_evaluate, evaluate_eq_iff.mpr hr]
  exact ⟨rfl, rfl, hl, rfl, hj, hn, Kind.category_problems⟩

/-- The tree of `2*a=b+3`. -/
def productOfAssignment : Expression :=
  .mk (.mk (.number 2)
    (.times (.assignment "a" (.mk (.mk (.reading "b") .none) (.plus (.mk (.number 3) .none) .none)))
      .none)) .none

theorem placed_productOfAssignment : productOfAssignment.Placed := by
  simp [productOfAssignment, Expression.Placed, Term.Placed, Factors.Placed, Terms.Placed,
    Primary.Placed, Expression.primaries, Term.primaries, Factors.primaries, Terms.primaries,
    Primary.Open]

theorem evaluateFrom_productOfAssignment :
    let c := Calculator.ofInput (.ofString "2*a=b+3;") .seeded (.ofSink .silent)
    let t := (Table.seeded.touch "b").set "a" 3
    productOfAssignment.Placed ∧
      (c.start .fetch).Delivers (productOfAssignment.kinds ++ [.terminator]) ∧
      productOfAssignment.eval? c.table = some (6, t) ∧
      (c.evaluateFrom .fetch).1 = 6 ∧ (c.evaluateFrom .fetch).2.table = t ∧
      (c.evaluateFrom .fetch).2.kind = .terminator := by
  intro c t
  have hd : (c.start .fetch).Delivers (productOfAssignment.kinds ++ [.terminator]) := by
    decide +kernel
  have hv : productOfAssignment.eval? c.table = some (6, t) := by decide +kernel
  have h := evaluateFrom_of_placed placed_productOfAssignment rfl hd hv
  exact ⟨placed_productOfAssignment, hd, hv, h.1, h.2.1, h.2.2.1⟩

end DeskCalculator.Grammar

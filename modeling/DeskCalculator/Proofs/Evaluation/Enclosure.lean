import DeskCalculator.Proofs.Evaluation.Acts
import DeskCalculator.Proofs.Evaluation.Log

/-!
# Evaluation — What an act completes

Two acts complete a part of an expression.  A store completes an assignment: directly before it are a
name, a `=`, and the acts of the right-hand side, whose value it stores (`Assigning`).  The report of an
unclosed parenthesis completes this: directly before it are the `(` and the acts of an expression, and
no `)` comes next (`Unclosed`).

**There is no such act without its part** (`Enacts.accounted`).  This is kept when acts follow one
another and when a part is completed, so it holds of all acts of an evaluation, however the parts are
nested in one another and wherever they are abandoned.
-/

namespace DeskCalculator.Calculator

/-- `c` stands at a parenthesis that its expression leaves unclosed: its acts are `acts`, the expression
ends in `e`, and the whole of it has the value of a faulty part. -/
structure Unclosed (c : Calculator) (acts : List Act) (e : Calculator) : Prop where
  kind : c.kind = .openParen
  expression : c.advance.Enacts acts e
  evaluate : c.advance.evaluate.2 = e
  missing : e.kind ≠ .closeParen
  value : c.primary.value = faultValue
  after : c.primary.after = e.report .unclosedParen

/-- `c` stands at a name with a `=` behind it: the acts of the right-hand side are `acts`, it has the
value `value` and ends in `e`, where this value is stored.  The whole of it has the same value. -/
structure Assigning (c : Calculator) (name : String) (acts : List Act) (value : Float)
    (e : Calculator) : Prop where
  kind : c.kind = .name name
  assign : c.advance.kind = .assign
  expression : c.advance.advance.Enacts acts e
  evaluate : c.advance.advance.evaluate = (value, e)
  result : c.primary.value = value
  after : c.primary.after = e.store name value

section
variable {c e : Calculator} {acts : List Act} {name : String} {value : Float}

theorem unclosed_of_evaluate (hk : c.kind = .openParen) (he : c.advance.evaluate = (value, e))
    (hc : e.kind ≠ .closeParen) (h : c.advance.Enacts acts e) : c.Unclosed acts e := by
  have hp : Evaluates .primary c faultValue (e.report .unclosedParen) :=
    .unclosed hk (evaluate_eq_iff.mp he) hc
  obtain ⟨hv, ha⟩ := Prod.mk.inj (run_of_evaluates hp)
  exact ⟨hk, h, congrArg Prod.snd he, hc, hv, ha⟩

theorem assigning_of_evaluate (hk : c.kind = .name name) (ha : c.advance.kind = .assign)
    (he : c.advance.advance.evaluate = (value, e)) (h : c.advance.advance.Enacts acts e) :
    c.Assigning name acts value e := by
  have hp : Evaluates .primary c value (e.store name value) :=
    .name hk (.assignment ha (evaluate_eq_iff.mp he))
  obtain ⟨hv, hs⟩ := Prod.mk.inj (run_of_evaluates hp)
  exact ⟨hk, ha, h, he, hv, hs⟩

end

/-- From `c` on, `acts` are what the act completes, if it completes something. -/
def Completes (c : Calculator) (acts : List Act) : Act → Prop
  | .report .unclosedParen   =>
      ∃ inner, acts = .take c.current :: inner ∧ c.Unclosed inner (c.enact acts)
  | .change (.set name value) =>
      ∃ inner, acts = .take c.current :: .take c.advance.current :: inner ∧
        c.Assigning name inner value (c.enact acts)
  | _ => True

/-- Each act stands directly behind what it completes. -/
def Accounted (c : Calculator) (acts : List Act) : Prop :=
  ∀ front a back, acts = front ++ a :: back →
    ∃ outer part, front = outer ++ part ∧ (c.enact outer).Completes part a

namespace Accounted
variable {c : Calculator} {acts more : List Act} {a : Act}

theorem nil (c : Calculator) : c.Accounted [] := fun _ _ _ hs => absurd hs (by simp)

theorem append (h : c.Accounted acts) (h' : (c.enact acts).Accounted more) :
    c.Accounted (acts ++ more) := by
  intro front a back hs
  rcases append_eq_append_cons hs with ⟨rest, ha, -⟩ | ⟨rest, rfl, hm⟩
  · exact h front a rest ha
  · obtain ⟨outer, part, rfl, hp⟩ := h' rest a back hm
    refine ⟨acts ++ outer, part, (List.append_assoc _ _ _).symm, ?_⟩
    rwa [enact_append]

/-- A part, and the act that completes it. -/
theorem snoc (h : c.Accounted acts) (ha : c.Completes acts a) : c.Accounted (acts ++ [a]) := by
  intro front b back hs
  rcases append_eq_append_cons hs with ⟨rest, hf, -⟩ | ⟨rest, rfl, hm⟩
  · exact h front b rest hf
  · -- the act in question is the last one, whose part is all that stands before it
    obtain ⟨rfl, hb⟩ | ⟨rest', -, hb⟩ := List.cons_eq_append_iff.mp hm
    · cases hb
      exact ⟨[], acts, List.append_nil acts, ha⟩
    · cases rest' <;> cases hb

/-- A part, the act that completes it, and what follows. -/
theorem complete (h : c.Accounted acts) (ha : c.Completes acts a)
    (h' : ((c.enact acts).act a).Accounted more) : c.Accounted (acts ++ a :: more) := by
  rw [List.append_cons]
  refine (h.snoc ha).append ?_
  rwa [enact_append]

/-- An act that completes nothing. -/
theorem cons (ha : c.Completes [] a) (h : (c.act a).Accounted acts) : c.Accounted (a :: acts) :=
  (nil c).complete ha h

end Accounted

/-- **No store without an assignment, and no report without a parenthesis.** -/
theorem Enacts.accounted {c c' : Calculator} {acts : List Act} (h : c.Enacts acts c') :
    c.Accounted acts := by
  induction h with
  | done => exact .nil _
  | plain _ _ ih => exact .cons trivial ih
  | report hp _ ih => exact .cons (by rcases hp with rfl | rfl <;> trivial) ih
  | reading _ _ _ ih => exact .cons trivial (.cons trivial ih)
  | @assignment c _ _ inner _ name value hk ha he hi _ ihi ih =>
      obtain rfl := hi.eq_enact
      have hpart : c.Accounted (.take c.current :: .take c.advance.current :: inner) :=
        .cons trivial (.cons trivial ihi)
      have hset : c.Completes _ (.change (.set name value)) :=
        ⟨inner, rfl, assigning_of_evaluate hk ha he hi⟩
      exact hpart.complete hset ih
  | group _ _ _ hi _ ihi ih =>
      refine .cons trivial (ihi.append (.cons trivial ?_))
      exact hi.eq_enact ▸ ih
  | @unclosed c _ _ inner _ _ hk he hc hi _ ihi ih =>
      obtain rfl := hi.eq_enact
      have hpart : c.Accounted (.take c.current :: inner) := .cons trivial ihi
      have hreport : c.Completes _ (.report .unclosedParen) :=
        ⟨inner, rfl, unclosed_of_evaluate hk he hc hi⟩
      exact hpart.complete hreport ih

end DeskCalculator.Calculator

import DeskCalculator.Proofs.Evaluation.Consumption

/-!
# Evaluation — The log of an evaluation

What an evaluation adds to the log are the fetches of tokens, reads that failed, and reports
(`Reading`); it is not the evaluation that notes the value of a statement, or the end of the session.
A bad character is reported by the fetch that finds it, directly before its token is noted, and by
nothing else (`Announced`).  Both are kept when logs follow one another, so they hold of whatever an
evaluation consists of (`Consumes.reading`).
-/

namespace DeskCalculator

/-- In the log, the report of a bad character stands directly before the token of that character, and
the token of a bad character directly behind its report. -/
structure Announced (log : List Event) : Prop where
  followed {front back : List Event} {found : Char} {count : Nat} :
    log = front ++ .reported (.badToken found) count :: back →
      ∃ token rest, back = .fetched token :: rest ∧ token.kind = .bad found
  preceded {front back : List Event} {token : Token} {found : Char} :
    log = front ++ .fetched token :: back → token.kind = .bad found →
      ∃ rest count, front = rest ++ [.reported (.badToken found) count]

/-- Whether an event comes up while a statement is read. -/
def Event.ofReading : Event → Bool
  | .fetched _ | .readFailed .. | .reported .. => true
  | .evaluated .. | .finished ..               => false

/-- The log is one of reading, with the bad characters announced. -/
structure Reading (log : List Event) : Prop where
  announced : Announced log
  plain : ∀ event ∈ log, event.ofReading = true

/-- A member of two lists is one of the first or one of the second. -/
theorem append_eq_append_cons {α : Type} {l m front back : List α} {a : α}
    (h : l ++ m = front ++ a :: back) :
    (∃ rest, l = front ++ a :: rest ∧ back = rest ++ m) ∨
      ∃ rest, front = l ++ rest ∧ m = rest ++ a :: back := by
  rcases List.append_eq_append_iff.mp h with ⟨rest, hf, hm⟩ | ⟨rest, hl, hb⟩
  · exact .inr ⟨rest, hf, hm⟩
  · cases rest with
    | nil => exact .inr ⟨[], by rw [hl, List.append_nil, List.append_nil], hb.symm⟩
    | cons e rest =>
        obtain ⟨rfl, rfl⟩ := List.cons.inj hb
        exact .inl ⟨rest, hl, rfl⟩

variable {log more front back : List Event} {event : Event}

namespace Announced

theorem append (h : Announced log) (h' : Announced more) : Announced (log ++ more) where
  followed hs := by
    rcases append_eq_append_cons hs with ⟨rest, hl, rfl⟩ | ⟨rest, rfl, hm⟩
    · obtain ⟨token, rest, rfl, hk⟩ := h.followed hl
      exact ⟨token, rest ++ more, rfl, hk⟩
    · exact h'.followed hm
  preceded hs hk := by
    rcases append_eq_append_cons hs with ⟨rest, hl, rfl⟩ | ⟨rest, rfl, hm⟩
    · exact h.preceded hl hk
    · obtain ⟨front, count, rfl⟩ := h'.preceded hm hk
      exact ⟨log ++ front, count, (List.append_assoc _ _ _).symm⟩

/-- A log in which there is nothing to announce. -/
theorem of_unbad (hp : ∀ found, .badToken found ∉ problemsIn log)
    (ht : ∀ token ∈ tokensIn log, ∀ found, token.kind ≠ .bad found) : Announced log where
  followed {front back found count} hs := by
    refine absurd ?_ (hp found)
    rw [hs, problemsIn_append]
    exact List.mem_append_right _ List.mem_cons_self
  preceded {front back token found} hs hk := by
    refine absurd hk (ht token ?_ found)
    rw [hs, tokensIn_append]
    exact List.mem_append_right _ List.mem_cons_self

theorem nil : Announced [] := of_unbad (fun _ => List.not_mem_nil) (fun _ h => absurd h List.not_mem_nil)

theorem split_pair {first second : Event} (h : [first, second] = front ++ event :: back) :
    front = [] ∧ event = first ∧ back = [second] ∨ front = [first] ∧ event = second ∧ back = [] := by
  have hs : [first] ++ [second] = front ++ event :: back := h
  rcases append_eq_append_cons hs with ⟨rest, hl, rfl⟩ | ⟨rest, rfl, hm⟩
  · obtain ⟨rfl, hl⟩ | ⟨rest', -, hl⟩ := List.cons_eq_append_iff.mp hl
    · cases hl
      exact .inl ⟨rfl, rfl, rfl⟩
    · cases rest' <;> cases hl
  · obtain ⟨rfl, hm⟩ | ⟨rest', -, hm⟩ := List.cons_eq_append_iff.mp hm
    · cases hm
      exact .inr ⟨rfl, rfl, rfl⟩
    · cases rest' <;> cases hm

/-- A bad character, reported and noted. -/
theorem of_bad {token : Token} {found : Char} (count : Nat) (hk : token.kind = .bad found) :
    Announced [.reported (.badToken found) count, .fetched token] where
  followed hs := by
    rcases split_pair hs with ⟨-, he, rfl⟩ | ⟨-, he, -⟩
    · cases he
      exact ⟨token, [], rfl, hk⟩
    · cases he
  preceded hs hk' := by
    rcases split_pair hs with ⟨-, he, -⟩ | ⟨rfl, he, -⟩
    · cases he
    · cases he
      cases hk.symm.trans hk'
      exact ⟨[], count, rfl⟩

end Announced

namespace Reading

theorem nil : Reading [] := ⟨.nil, nofun⟩

theorem append (h : Reading log) (h' : Reading more) : Reading (log ++ more) :=
  ⟨h.announced.append h'.announced, fun event he => (List.mem_append.mp he).elim (h.plain event)
    (h'.plain event)⟩

theorem of_report {problem : Problem} (hp : problem.isBadToken = false) (count : Nat) :
    Reading [.reported problem count] := by
  refine ⟨.of_unbad (fun found hm => ?_) nofun, fun event he => ?_⟩
  · cases List.mem_singleton.mp hm
    cases hp
  · cases List.mem_singleton.mp he
    rfl

theorem of_fetch {failed : List Event} (hf : MayFail failed) (token : Token) (count : Nat) :
    Reading (failed ++ token.kind.reports count ++ [.fetched token]) := by
  have hfailed : Reading failed := by
    rcases hf with rfl | ⟨message, line, rfl⟩
    · exact .nil
    · exact ⟨.of_unbad nofun nofun, by simp [Event.ofReading]⟩
  rw [List.append_assoc]
  refine hfailed.append ?_
  cases hk : token.kind with
  | bad found => exact ⟨.of_bad count hk, by simp [Kind.reports, Kind.problems, Event.ofReading]⟩
  | _ =>
      refine ⟨.of_unbad nofun fun t ht found hb => ?_, by
        simp [Kind.reports, Kind.problems, Event.ofReading]⟩
      cases List.mem_singleton.mp ht
      cases hk.symm.trans hb

end Reading

namespace Calculator

/-- **What an evaluation adds to the log is a log of reading.** -/
theorem Consumes.reading {c c' : Calculator} {consumed : List Token} (h : c.Consumes consumed c') :
    ∃ log, c.journal.Grows log c'.journal ∧ Reading log := by
  induction h with
  | done c => exact ⟨[], .refl _, .nil⟩
  | @fetch c c' consumed _ _ ih =>
      obtain ⟨failed, hf, hg⟩ := Lexer.grows_next c.lexer c.journal
      obtain ⟨log, hl, hr⟩ := ih
      exact ⟨_, hg.trans hl, (Reading.of_fetch hf _ _).append hr⟩
  | report hp _ ih =>
      obtain ⟨log, hl, hr⟩ := ih
      exact ⟨_, (Journal.Grows.of_report _ _).trans hl, (Reading.of_report hp _).append hr⟩
  | withTable _ _ ih => exact ih

end Calculator

end DeskCalculator

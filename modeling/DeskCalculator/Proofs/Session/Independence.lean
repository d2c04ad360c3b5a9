import DeskCalculator.Proofs.Session.Parallel

/-!
# Sessions — Texts that do not meet

Two texts do not meet if neither assigns a name that the other mentions.  Then neither sees what the
other does to the variables.  Each may read names that the other reads too, though reading creates
them: to create a name changes no value, and to create it twice is to create it once.

**The order does not matter** (`calculate_commutes`).  So the two texts, with a separator between them,
print and report the same in either order, one block for each text, and leave the same variables.

**Reading has no effect** (`calculate_twice`).  A text that assigns nothing does not even meet itself.
It prints and reports the same a second time, and leaves every variable the value it had.
-/

namespace DeskCalculator

open Calculator
open Table (Change)

/-- The outcome of a calculation over a text, from a table and with nothing printed or reported yet. -/
def session (table : Table) (source : String) : Calculator × Sink :=
  calculate (.ofInput (.ofString source) table (.ofSink (.buffer ""))) (.buffer "")

/-- What `whole` prints and reports is what `first` does, and behind it what `second` does. -/
structure InTurn (whole first second : Calculator × Sink) : Prop where
  printed : whole.2.captured = first.2.captured ++ second.2.captured
  diagnostics : whole.1.journal.sink.captured =
    first.1.journal.sink.captured ++ second.1.journal.sink.captured
  problems : whole.1.journal.problems = first.1.journal.problems ++ second.1.journal.problems
  errors : whole.1.errors = first.1.errors + second.1.errors

variable {table : Table} {source a b : String} {values more : List Float}
  {problems further : List Problem} {changes others : List Change}

/-- A session over a text yields these values, problems and changes. -/
def Yielded (table : Table) (source : String) (values : List Float) (problems : List Problem)
    (changes : List Change) : Prop :=
  (ofInput (.ofString source) table (.ofSink (.buffer ""))).Yields (.buffer "") values problems changes

theorem Yielded.printed_eq (h : Yielded table source values problems changes) :
    (session table source).2.captured = unlines (values.map Double.text) := by
  rw [session, h.printed, Sink.printlnAll_buffer]
  exact String.empty_append

theorem Yielded.diagnostics_eq (h : Yielded table source values problems changes) :
    (session table source).1.journal.sink.captured = unlines (problems.map Problem.line) := by
  rw [session, h.journal.sink_eq]
  exact (congrArg Sink.captured (Sink.printlnAll_buffer _ _)).trans String.empty_append

theorem Yielded.problems_eq (h : Yielded table source values problems changes) :
    (session table source).1.journal.problems = problems :=
  h.journal.problems_eq

theorem Yielded.errors_eq (h : Yielded table source values problems changes) :
    (session table source).1.errors = problems.length :=
  h.journal.errors_eq.trans (Nat.zero_add _)

theorem InTurn.of_yielded {whole : String} {between : Table}
    (h : Yielded table whole (values ++ more) (problems ++ further) (changes ++ others))
    (ha : Yielded table a values problems changes) (hb : Yielded between b more further others) :
    InTurn (session table whole) (session table a) (session between b) where
  printed := by rw [h.printed_eq, ha.printed_eq, hb.printed_eq, List.map_append, unlines_append]
  diagnostics := by
    rw [h.diagnostics_eq, ha.diagnostics_eq, hb.diagnostics_eq, List.map_append, unlines_append]
  problems := by rw [h.problems_eq, ha.problems_eq, hb.problems_eq]
  errors := by rw [h.errors_eq, ha.errors_eq, hb.errors_eq, List.length_append]

/-! ### What a text does not assign -/

namespace Table.Change.Within
variable {c d : Change}

theorem mentions (h : c.Within (Mentions a) (Assigns a)) : Mentions a c.name := by
  cases c with
  | touch => exact h
  | set => exact h.mentions

theorem creates (h : c.Within (Mentions a) (Assigns a)) (hn : ¬ Assigns a c.name) :
    c.creates = true := by
  cases c with
  | touch => rfl
  | set => exact absurd h hn

/-- The changes of texts that do not meet. -/
theorem apart (hc : c.Within (Mentions a) (Assigns a)) (hd : d.Within (Mentions b) (Assigns b))
    (hab : ∀ name, Assigns a name → ¬ Mentions b name)
    (hba : ∀ name, Assigns b name → ¬ Mentions a name) : c.Apart d := by
  intro hn
  refine ⟨hc.creates fun ha => hab _ ha ?_, hd.creates fun hb => hba _ hb ?_⟩
  · rw [hn]
    exact hd.mentions
  · rw [← hn]
    exact hc.mentions

end Table.Change.Within

/-- A session leaves a name with the value it reads as, if the text does not assign it. -/
theorem value_session (table : Table) (source : String) {name : String}
    (h : ¬ Assigns source name) : (session table source).1.table.value name = table.value name := by
  obtain ⟨values, problems, changes, hw, hy⟩ :=
    exists_yields_alone source table (.ofSink (.buffer "")) (.buffer "")
  have ht : (session table source).1.table = table.changes changes := hy.table
  rw [ht]
  exact Table.value_changes_of fun c hc hn => (hw c hc).creates (hn ▸ h)

/-- **A text yields the same behind another one that assigns no name it mentions.** -/
theorem exists_yielded_behind {sep : Char} (hsep : Separates sep)
    (h : ∀ name, Assigns a name → ¬ Mentions b name) (table : Table) :
    ∃ more further others, (∀ c ∈ others, Change.Within (Mentions b) (Assigns b) c) ∧
      Yielded table b more further others ∧
      ∀ {values problems changes}, Yielded table a values problems changes →
        Yielded table (a ++ .singleton sep ++ b) (values ++ more) (problems ++ further)
          (changes ++ others) := by
  have hv : ∀ name, Mentions b name → (session table a).1.table.value name = table.value name :=
    fun name hm => value_session table a fun hn => h name hn hm
  obtain ⟨more, further, others, hw, hb, hs⟩ := exists_yields b table (kind_calculate _ _) hv
    (.ofSink (.buffer "")) (.buffer "") (session table a).2
  exact ⟨more, further, others, hw, hb, fun ha => ha.separated hsep hs⟩

/-- **Texts that do not meet commute.**  If neither of two texts assigns a name the other mentions, they
print and report the same in either order: what each of them does alone, one after the other.  The
variables are the same in the end, with the same values, and so is the number of errors. -/
theorem calculate_commutes {sep : Char} (hsep : Separates sep)
    (hab : ∀ name, Assigns a name → ¬ Mentions b name)
    (hba : ∀ name, Assigns b name → ¬ Mentions a name) (table : Table) :
    let ab := session table (a ++ .singleton sep ++ b)
    let ba := session table (b ++ .singleton sep ++ a)
    ab.1.table.Alike ba.1.table ∧ ab.1.errors = ba.1.errors ∧
      InTurn ab (session table a) (session table b) ∧
      InTurn ba (session table b) (session table a) := by
  intro ab ba
  obtain ⟨more, further, others, hwb, hb, hb'⟩ := exists_yielded_behind hsep hab table
  obtain ⟨values, problems, changes, hwa, ha, ha'⟩ := exists_yielded_behind hsep hba table
  have hab' := hb' ha
  have hba' := ha' hb
  have hin : InTurn ab (session table a) (session table b) := .of_yielded hab' ha hb
  have hin' : InTurn ba (session table b) (session table a) := .of_yielded hba' hb ha
  refine ⟨?_, ?_, hin, hin'⟩
  · have ht : ab.1.table = (table.changes changes).changes others :=
      hab'.table.trans Table.changes_append
    have ht' : ba.1.table = (table.changes others).changes changes :=
      hba'.table.trans Table.changes_append
    rw [ht, ht']
    exact Table.changes_comm (fun c hc d hd => (hwa c hc).apart (hwb d hd) hab hba) table
  · rw [hin.errors, hin'.errors, Nat.add_comm]

/-- Both texts read a variable that is missing at first, and both are faulty. -/
theorem calculate_commutes_faulty :
    let a := "x=1/0;y@"
    let b := "z=2+y*(pi"
    let ab := session .seeded (a ++ .singleton '\n' ++ b)
    let ba := session .seeded (b ++ .singleton '\n' ++ a)
    Separates '\n' ∧ (∀ name, Assigns a name → ¬ Mentions b name) ∧
      (∀ name, Assigns b name → ¬ Mentions a name) ∧ ab.1.table.Alike ba.1.table ∧
      ab.2.captured = "1\n0\n2\n" ∧ ba.2.captured = "2\n1\n0\n" ∧
      ab.1.journal.problems = [.divideByZero, .badToken '@', .unclosedParen] ∧
      ba.1.journal.problems = [.unclosedParen, .divideByZero, .badToken '@'] := by
  intro a b ab ba
  have hs : Separates '\n' := .inl rfl
  have ha : (tokenize a).1.map Token.kind = [.name "x", .assign, .number 1, .divide, .number 0,
      .terminator, .name "y", .bad '@'] := by decide +kernel
  have hb : (tokenize b).1.map Token.kind = [.name "z", .assign, .number 2, .plus, .name "y", .times,
      .openParen, .name "pi"] := by decide +kernel
  have hab : ∀ name, Assigns a name → ¬ Mentions b name := by
    intro name hn hm
    rw [Mentions, hb] at hm
    obtain rfl | rfl | rfl : name = "z" ∨ name = "y" ∨ name = "pi" := by simpa using hm
    all_goals exact absurd hn (by decide +kernel)
  have hba : ∀ name, Assigns b name → ¬ Mentions a name := by
    intro name hn hm
    rw [Mentions, ha] at hm
    obtain rfl | rfl : name = "x" ∨ name = "y" := by simpa using hm
    all_goals exact absurd hn (by decide +kernel)
  obtain ⟨ht, -, hin, hin'⟩ := calculate_commutes hs hab hba .seeded
  have oa : (session .seeded a).2.captured = "1\n0\n" := by decide +kernel
  have ob : (session .seeded b).2.captured = "2\n" := by decide +kernel
  have pa : (session .seeded a).1.journal.problems = [.divideByZero, .badToken '@'] := by
    decide +kernel
  have pb : (session .seeded b).1.journal.problems = [.unclosedParen] := by decide +kernel
  refine ⟨hs, hab, hba, ht, ?_, ?_, ?_, ?_⟩
  · rw [hin.printed, oa, ob]
    rfl
  · rw [hin'.printed, oa, ob]
    rfl
  · rw [hin.problems, pa, pb]
    rfl
  · rw [hin'.problems, pa, pb]
    rfl

/-- **To read a second time is to read once.**  A text without a `=` prints and reports the same when it
is evaluated again, and the variables stay as they are; each of them has the value it had in the
beginning, or zero if it was missing. -/
theorem calculate_twice {sep : Char} (hsep : Separates sep) (h : '=' ∉ source.toList)
    (table : Table) :
    let once := session table source
    let twice := session table (source ++ .singleton sep ++ source)
    InTurn twice once once ∧ twice.1.errors = 2 * once.1.errors ∧
      twice.1.table = once.1.table ∧
      (∀ name value, twice.1.table.get? name = some value → value = table.value name) ∧
      ∀ name, (table.get? name).isSome = true → (twice.1.table.get? name).isSome = true := by
  intro once twice
  obtain ⟨values, problems, changes, hw, ha, hb⟩ := exists_yielded_behind hsep
    (fun name hn => absurd hn (not_assigns h name)) table
  have hc : ∀ c ∈ changes, c.creates = true := fun c hm => (hw c hm).creates (not_assigns h _)
  have hab := hb ha
  have hin : InTurn twice once once := .of_yielded hab ha ha
  have ht : once.1.table = table.changes changes := ha.table
  have ht' : twice.1.table = table.changes changes := by
    calc twice.1.table = (table.changes changes).changes changes :=
          hab.table.trans Table.changes_append
      _ = table.changes changes := Table.changes_again hc table
  refine ⟨hin, ?_, ht'.trans ht.symm, fun name value hv => ?_, fun name hn => ?_⟩
  · rw [hin.errors, Nat.two_mul]
  · rw [ht'] at hv
    calc value = (table.changes changes).value name := by rw [Table.value, hv, Option.getD_some]
      _ = table.value name := Table.value_changes_of_creates hc table name
  · rw [ht']
    exact Table.isSome_get?_changes hn changes

/-- A variable that is created, and one that is divided by it. -/
theorem calculate_twice_faulty :
    let source := "y;e/y+(3"
    let once := session .seeded source
    let twice := session .seeded (source ++ .singleton ';' ++ source)
    Separates ';' ∧ '=' ∉ source.toList ∧ once.2.captured = "0\n2\n" ∧
      twice.2.captured = "0\n2\n0\n2\n" ∧ once.1.errors = 2 ∧ twice.1.errors = 4 ∧
      twice.1.table = once.1.table ∧ once.1.table.get? "y" = some 0 := by
  intro source once twice
  have hs : Separates ';' := .inr rfl
  have hn : '=' ∉ source.toList := by decide
  obtain ⟨hin, he, ht, -⟩ := calculate_twice hs hn .seeded
  have ho : once.2.captured = "0\n2\n" := by decide +kernel
  have h2 : once.1.errors = 2 := by decide +kernel
  refine ⟨hs, hn, ho, ?_, h2, ?_, ht, by decide +kernel⟩
  · rw [hin.printed, ho]
    rfl
  · rw [he, h2]

end DeskCalculator

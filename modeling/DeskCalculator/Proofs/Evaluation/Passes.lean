import DeskCalculator.Calculator.Evaluation
import DeskCalculator.Proofs.Lexer.Fetch

/-!
# Evaluation — The tokens ahead

The tokens a calculator is going to read, from its current one on.  `c.skip n` is `c` after `n`
fetches, `c.ahead n` are the tokens it has gone past by then, and `c.Delivers kinds` says what kinds
the first of them have.  `c.Passes kinds c'` says that `c'` is `c` past tokens of these kinds, with
nothing reported on the way but what the fetches report themselves; only the table may have changed.
-/

namespace DeskCalculator.Calculator

/-- The calculator after `n` fetches. -/
def skip (c : Calculator) : Nat → Calculator
  | 0     => c
  | n + 1 => c.advance.skip n

/-- The next `n` tokens, the current one first. -/
def ahead (c : Calculator) : Nat → List Token
  | 0     => []
  | n + 1 => c.current :: c.advance.ahead n

/-- The tokens to come, from the current one on, start with these kinds. -/
def Delivers (c : Calculator) (kinds : List Kind) : Prop :=
  (c.ahead kinds.length).map Token.kind = kinds

instance (c : Calculator) (kinds : List Kind) : Decidable (c.Delivers kinds) :=
  inferInstanceAs (Decidable (_ = _))

/-- The calculator with another table. -/
def withTable (c : Calculator) (t : Table) : Calculator := { c with table := t }

/-- `c'` is `c` past tokens of these kinds, perhaps with another table. -/
def Passes (c : Calculator) (kinds : List Kind) (c' : Calculator) : Prop :=
  c.Delivers kinds ∧ c' = (c.skip kinds.length).withTable c'.table

/-! ### Fetches and the table do not meet -/

section
variable (c : Calculator) (t u : Table) (n : Nat)

@[simp] theorem table_withTable : (c.withTable t).table = t := rfl

@[simp] theorem kind_withTable : (c.withTable t).kind = c.kind := rfl

@[simp] theorem withTable_table : c.withTable c.table = c := rfl

@[simp] theorem withTable_withTable : (c.withTable t).withTable u = c.withTable u := rfl

@[simp] theorem skip_withTable : (c.withTable t).skip n = (c.skip n).withTable t := by
  induction n generalizing c with
  | zero => rfl
  | succ n ih => exact ih c.advance

@[simp] theorem ahead_withTable : (c.withTable t).ahead n = c.ahead n := by
  induction n generalizing c with
  | zero => rfl
  | succ n ih => exact congrArg (c.current :: ·) (ih c.advance)

@[simp] theorem delivers_withTable {kinds : List Kind} :
    (c.withTable t).Delivers kinds ↔ c.Delivers kinds := by
  simp only [Delivers, ahead_withTable]

end

theorem store_eq_withTable (c : Calculator) (name : String) (value : Float) :
    c.store name value = c.withTable (c.table.set name value) := rfl

theorem touch_eq_withTable (c : Calculator) (name : String) :
    c.touch name = c.withTable (c.table.touch name) := rfl

/-! ### Deliveries in sequence -/

theorem skip_add (c : Calculator) (m n : Nat) : c.skip (m + n) = (c.skip m).skip n := by
  induction m generalizing c with
  | zero => rw [Nat.zero_add]; rfl
  | succ m ih => rw [Nat.succ_add]; exact ih c.advance

theorem ahead_add (c : Calculator) (m n : Nat) :
    c.ahead (m + n) = c.ahead m ++ (c.skip m).ahead n := by
  induction m generalizing c with
  | zero => rw [Nat.zero_add]; rfl
  | succ m ih => rw [Nat.succ_add]; exact congrArg (c.current :: ·) (ih c.advance)

@[simp] theorem delivers_nil (c : Calculator) : c.Delivers [] := rfl

@[simp] theorem delivers_cons {c : Calculator} {k : Kind} {kinds : List Kind} :
    c.Delivers (k :: kinds) ↔ c.kind = k ∧ c.advance.Delivers kinds := by
  simp only [Delivers, List.length_cons, ahead, List.map_cons, List.cons.injEq]
  rfl

theorem delivers_append {c : Calculator} {kinds more : List Kind} :
    c.Delivers (kinds ++ more) ↔ c.Delivers kinds ∧ (c.skip kinds.length).Delivers more := by
  induction kinds generalizing c with
  | nil => simp [skip]
  | cons k kinds ih => simp [ih, skip, and_assoc]

/-! ### Passing over tokens -/

theorem Passes.refl (c : Calculator) : c.Passes [] c := ⟨delivers_nil c, rfl⟩

/-- A token, and what comes after it. -/
theorem Passes.cons {c c' : Calculator} {k : Kind} {kinds : List Kind} (hk : c.kind = k)
    (h : c.advance.Passes kinds c') : c.Passes (k :: kinds) c' :=
  ⟨delivers_cons.mpr ⟨hk, h.1⟩, h.2⟩

theorem Passes.single {c : Calculator} {k : Kind} (hk : c.kind = k) : c.Passes [k] c.advance :=
  .cons hk (.refl _)

theorem Passes.withTable {c c' : Calculator} {kinds : List Kind} (h : c.Passes kinds c')
    (t : Table) : c.Passes kinds (c'.withTable t) := by
  refine ⟨h.1, ?_⟩
  calc c'.withTable t
      = ((c.skip kinds.length).withTable c'.table).withTable t := by rw [← h.2]
    _ = (c.skip kinds.length).withTable t := rfl

theorem Passes.trans {c c' c'' : Calculator} {kinds more : List Kind} (h : c.Passes kinds c')
    (h' : c'.Passes more c'') : c.Passes (kinds ++ more) c'' := by
  obtain ⟨hd, he⟩ := h
  obtain ⟨hd', he'⟩ := h'
  rw [he] at hd' he'
  simp only [delivers_withTable, skip_withTable, withTable_withTable] at hd' he'
  refine ⟨delivers_append.mpr ⟨hd, hd'⟩, ?_⟩
  rw [List.length_append, skip_add]
  exact he'

theorem Passes.snoc {c c' : Calculator} {k : Kind} {kinds : List Kind} (h : c.Passes kinds c')
    (hk : c'.kind = k) : c.Passes (kinds ++ [k]) c'.advance :=
  h.trans (.single hk)

theorem Passes.uncons {c c' : Calculator} {k : Kind} {kinds : List Kind}
    (h : c.Passes (k :: kinds) c') : c.kind = k ∧ c.advance.Passes kinds c' :=
  ⟨(delivers_cons.mp h.1).1, (delivers_cons.mp h.1).2, h.2⟩

theorem Passes.eq_of_nil {c c' : Calculator} (h : c.Passes [] c') : c' = c.withTable c'.table := h.2

theorem Passes.eq {c c' : Calculator} (h : c.Passes [] c') (ht : c'.table = c.table) : c' = c := by
  rw [h.eq_of_nil, ht, withTable_table]

/-- Between two runs of tokens there is a calculator, whatever table it is given. -/
theorem Passes.split {c c' : Calculator} {kinds more : List Kind} (h : c.Passes (kinds ++ more) c')
    (t : Table) :
    ∃ d : Calculator, d.table = t ∧ c.Passes kinds d ∧ d.Passes more c' := by
  obtain ⟨hd, he⟩ := h
  obtain ⟨hk, hm⟩ := delivers_append.mp hd
  refine ⟨(c.skip kinds.length).withTable t, rfl, ⟨hk, rfl⟩, (delivers_withTable _ _).mpr hm, ?_⟩
  rw [List.length_append, skip_add] at he
  rw [skip_withTable]
  exact he

/-! ### What the journal says of the tokens passed -/

theorem tokens_advance (c : Calculator) :
    c.advance.journal.tokens = c.journal.tokens ++ [c.advance.current] :=
  Lexer.tokens_next c.lexer c.journal

theorem gains_advance (c : Calculator) :
    c.journal.Gains c.advance.kind.problems c.advance.journal :=
  Lexer.gains_next c.lexer c.journal

theorem problems_advance (c : Calculator) :
    c.advance.journal.problems = c.journal.problems ++ c.advance.kind.problems :=
  Lexer.problems_next c.lexer c.journal

theorem errors_advance (c : Calculator) :
    c.advance.errors = c.errors + c.advance.kind.problems.length :=
  Lexer.errors_next c.lexer c.journal

theorem errors_le_advance (c : Calculator) : c.errors ≤ c.advance.errors := by
  rw [errors_advance]
  exact Nat.le_add_right _ _

theorem tokens_skip (c : Calculator) (n : Nat) :
    (c.skip n).journal.tokens = c.journal.tokens ++ c.advance.ahead n := by
  induction n generalizing c with
  | zero => exact (List.append_nil _).symm
  | succ n ih =>
      calc (c.advance.skip n).journal.tokens
          = c.advance.journal.tokens ++ c.advance.advance.ahead n := ih c.advance
        _ = c.journal.tokens ++ c.advance.ahead (n + 1) := by
            rw [tokens_advance, List.append_assoc]
            rfl

/-- The current token and those fetched after it are the ones passed over and the new current one. -/
theorem current_cons_ahead (c : Calculator) (n : Nat) :
    c.current :: c.advance.ahead n = c.ahead n ++ [(c.skip n).current] :=
  ahead_add c n 1

theorem problems_skip {c : Calculator} {kinds : List Kind} (h : c.advance.Delivers kinds) :
    (c.skip kinds.length).journal.problems =
      c.journal.problems ++ kinds.flatMap Kind.problems := by
  induction kinds generalizing c with
  | nil => exact (List.append_nil _).symm
  | cons k kinds ih =>
      obtain ⟨hk, h⟩ := delivers_cons.mp h
      calc (c.advance.skip kinds.length).journal.problems
          = c.advance.journal.problems ++ kinds.flatMap Kind.problems := ih h
        _ = c.journal.problems ++ (k :: kinds).flatMap Kind.problems := by
            rw [problems_advance, hk, List.append_assoc, List.flatMap_cons]

theorem errors_skip {c : Calculator} {kinds : List Kind} (h : c.advance.Delivers kinds) :
    (c.skip kinds.length).errors = c.errors + (kinds.flatMap Kind.problems).length := by
  induction kinds generalizing c with
  | nil => rfl
  | cons k kinds ih =>
      obtain ⟨hk, h⟩ := delivers_cons.mp h
      calc (c.advance.skip kinds.length).errors
          = c.advance.errors + (kinds.flatMap Kind.problems).length := ih h
        _ = c.errors + ((k :: kinds).flatMap Kind.problems).length := by
            rw [errors_advance, hk, Nat.add_assoc, List.flatMap_cons, List.length_append]

end DeskCalculator.Calculator

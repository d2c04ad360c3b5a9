/-!
# Variables — The table

The variables of a session, in the order of their creation, each name once.  A name that is missing
reads as zero (`value`); reading it in a statement creates it (`touch`).  `pi` and `e` are ordinary
entries of the table a session starts with.
-/

namespace DeskCalculator

structure Table where
  entries : List (String × Float)
  deriving DecidableEq

namespace Table

/-- A table without variables. -/
def empty : Table := ⟨[]⟩

/-- The table a session starts with. -/
def seeded : Table := ⟨[("pi", 3.141592653589793), ("e", 2.718281828459045)]⟩

/-- The value of a name, if it is in the table. -/
def get? (t : Table) (name : String) : Option Float := t.entries.lookup name

/-- The value of a name, zero for a missing one. -/
def value (t : Table) (name : String) : Float := (t.get? name).getD 0

/-- Gives the first entry of a name a new value; a missing name is added at the end. -/
def replace (name : String) (value : Float) : List (String × Float) → List (String × Float)
  | [] => [(name, value)]
  | entry :: entries =>
      if name == entry.1 then (name, value) :: entries
      else entry :: replace name value entries

/-- Gives a name a value. -/
def set (t : Table) (name : String) (value : Float) : Table := ⟨replace name value t.entries⟩

/-- Creates a name with the value zero if it is missing. -/
def touch (t : Table) (name : String) : Table :=
  if (t.get? name).isSome then t else ⟨t.entries ++ [(name, 0)]⟩

/-- The number of variables. -/
def size (t : Table) : Nat := t.entries.length

/-- The names, in the order of their creation. -/
def names (t : Table) : List String := t.entries.map Prod.fst

theorem lookup_replace (name other : String) (value : Float) (entries : List (String × Float)) :
    (replace name value entries).lookup other =
      if other == name then some value else entries.lookup other := by
  induction entries with
  | nil => cases h : other == name <;> simp [replace, List.lookup_cons, h]
  | cons entry entries ih =>
      obtain ⟨key, old⟩ := entry
      unfold replace
      cases hn : name == key with
      | true =>
          have he := eq_of_beq hn
          cases ho : other == name with
          | true => simp [List.lookup_cons, ho]
          | false => simp [List.lookup_cons, ho, ← he]
      | false =>
          simp only [Bool.false_eq_true, if_false, List.lookup_cons, ih]
          cases ho : other == key with
          | false => rfl
          | true =>
              have he := eq_of_beq ho
              have hf : (other == name) = false := by
                rw [he]
                exact beq_eq_false_iff_ne.mpr fun h => by simp [h] at hn
              simp [hf]

theorem get?_set (t : Table) (name other : String) (value : Float) :
    (t.set name value).get? other = if other == name then some value else t.get? other :=
  lookup_replace name other value t.entries

theorem get?_touch (t : Table) (name other : String) :
    (t.touch name).get? other = if other == name then some (t.value name) else t.get? other := by
  cases ho : other == name with
  | true =>
      have he := eq_of_beq ho
      cases hg : t.get? name with
      | some old => simp [touch, Table.value, hg, he]
      | none =>
          have hl : t.entries.lookup name = none := hg
          simp [touch, Table.value, get?, List.lookup_append, hl, he]
  | false =>
      unfold touch
      split
      · rfl
      · simp [get?, List.lookup_append, List.lookup_cons, ho]

end Table

end DeskCalculator

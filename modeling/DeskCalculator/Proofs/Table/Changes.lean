import DeskCalculator.Table

/-!
# Variables — Changes

What a session does to its variables is a list of changes: a name is created, or is given a value.
Two tables are the same to a reader if they have the same names with the same values (`Alike`); the
order in which the names were created is not seen.

**Changes that do not meet commute** (`changes_comm`).  Two changes of one name do not commute, unless
both of them only create it.  Changes that only create names leave the value of every name as it is
(`value_changes_of_creates`), and made a second time they do nothing (`changes_again`).
-/

namespace DeskCalculator.Table

/-- What is done to one variable. -/
inductive Change where
  /-- The name is created, with the value zero, if it is missing. -/
  | touch (name : String)
  /-- The name is given a value. -/
  | set (name : String) (value : Float)

namespace Change

/-- The name the change is about. -/
def name : Change → String
  | .touch name | .set name _ => name

/-- Whether the change does no more than create a name. -/
def creates : Change → Bool
  | .touch _ => true
  | .set ..  => false

/-- The changes are about two names, or do no more than create the one. -/
def Apart (a b : Change) : Prop := a.name = b.name → a.creates = true ∧ b.creates = true

theorem eq_of_creates {a b : Change} (ha : a.creates = true) (hb : b.creates = true)
    (hn : a.name = b.name) : a = b := by
  cases a with
  | touch name =>
      cases b with
      | touch => exact congrArg touch hn
      | set => cases hb
  | set => cases ha

end Change

/-- The table after a change. -/
def change (t : Table) : Change → Table
  | .touch name     => t.touch name
  | .set name value => t.set name value

/-- The table after some changes, one after the other. -/
def changes (t : Table) (l : List Change) : Table := l.foldl change t

/-- The tables have the same names, with the same values. -/
def Alike (t u : Table) : Prop := ∀ name, u.get? name = t.get? name

variable {t u v : Table} {a b : Change} {l m : List Change} {name : String}

@[simp] theorem changes_cons : t.changes (a :: l) = (t.change a).changes l := rfl

@[simp] theorem changes_append : t.changes (l ++ m) = (t.changes l).changes m := List.foldl_append

theorem Alike.refl (t : Table) : t.Alike t := fun _ => rfl

theorem Alike.trans (h : t.Alike u) (h' : u.Alike v) : t.Alike v :=
  fun name => (h' name).trans (h name)

theorem Alike.value (h : t.Alike u) (name : String) : u.value name = t.value name :=
  congrArg (·.getD 0) (h name)

theorem mem_names : name ∈ t.names ↔ (t.get? name).isSome = true := by
  simp [names, get?]

theorem get?_eq_value (h : (t.get? name).isSome = true) : t.get? name = some (t.value name) := by
  obtain ⟨value, hv⟩ := Option.isSome_iff_exists.mp h
  rw [Table.value, hv]
  rfl

theorem value_of_not_isSome (h : ¬(t.get? name).isSome = true) : t.value name = 0 := by
  rw [Table.value, Option.not_isSome_iff_eq_none.mp h]
  rfl

/-! ### What a change does to the readers -/

/-- The value a change leaves its name with. -/
def Change.left (t : Table) : Change → Float
  | .touch name   => t.value name
  | .set _ value  => value

theorem get?_change (t : Table) (a : Change) (name : String) :
    (t.change a).get? name = if name == a.name then some (a.left t) else t.get? name := by
  cases a with
  | touch other => exact get?_touch t other name
  | set other value => exact get?_set t other name value

theorem value_change (t : Table) (a : Change) (name : String) :
    (t.change a).value name = if name == a.name then a.left t else t.value name := by
  rw [Table.value, get?_change]
  split <;> rfl

theorem Change.left_of_value (h : u.value a.name = t.value a.name) : a.left u = a.left t := by
  cases a with
  | touch => exact h
  | set => rfl

theorem value_change_ne (h : a.name ≠ name) : (t.change a).value name = t.value name := by
  rw [value_change, if_neg fun hn => h (eq_of_beq hn).symm]

/-- A change that gives no value to a name leaves it the value it reads as. -/
theorem value_change_of (h : a.name = name → a.creates = true) :
    (t.change a).value name = t.value name := by
  rw [value_change]
  split
  · rename_i hn
    obtain rfl := eq_of_beq hn
    cases a with
    | touch => rfl
    | set => cases h rfl
  · rfl

theorem value_changes_of (h : ∀ a ∈ l, a.name = name → a.creates = true) :
    (t.changes l).value name = t.value name := by
  induction l generalizing t with
  | nil => rfl
  | cons a l ih =>
      rw [changes_cons, ih fun b hb => h b (List.mem_cons_of_mem a hb),
        value_change_of (h a List.mem_cons_self)]

/-- The same changes leave a name with the same value, if it had one value before. -/
theorem value_changes_congr (h : u.value name = t.value name) (l : List Change) :
    (u.changes l).value name = (t.changes l).value name := by
  induction l generalizing t u with
  | nil => exact h
  | cons a l ih =>
      refine ih ?_
      rw [value_change, value_change]
      split
      · rename_i hn
        obtain rfl := eq_of_beq hn
        exact Change.left_of_value h
      · exact h

/-- A name that is there stays there. -/
theorem isSome_get?_changes (h : (t.get? name).isSome = true) (l : List Change) :
    ((t.changes l).get? name).isSome = true := by
  induction l generalizing t with
  | nil => exact h
  | cons a l ih =>
      refine ih ?_
      rw [get?_change]
      split
      · rfl
      · exact h

/-- A name holds what it was last given. -/
theorem get?_changes_of_set {value : Float} (h : ∀ a ∈ m, a.name = name → a.creates = true) :
    (t.changes (l ++ .set name value :: m)).get? name = some value := by
  have hs : (((t.changes l).change (.set name value)).get? name) = some value := by
    rw [get?_change]
    exact if_pos (beq_self_eq_true name)
  rw [changes_append, changes_cons,
    get?_eq_value (isSome_get?_changes (Option.isSome_of_eq_some hs) m), value_changes_of h,
    Table.value, hs]
  rfl

/-! ### Changes in another order -/

theorem Alike.change (h : t.Alike u) (a : Change) : (t.change a).Alike (u.change a) := by
  intro name
  rw [get?_change, get?_change, h name, Change.left_of_value (h.value a.name)]

theorem Alike.changes (h : t.Alike u) (l : List Change) : (t.changes l).Alike (u.changes l) := by
  induction l generalizing t u with
  | nil => exact h
  | cons a l ih => exact ih (h.change a)

theorem change_comm (h : a.Apart b) (t : Table) :
    ((t.change a).change b).Alike ((t.change b).change a) := by
  by_cases hn : a.name = b.name
  · obtain rfl : a = b := Change.eq_of_creates (h hn).1 (h hn).2 hn
    exact .refl _
  · have ha : a.left (t.change b) = a.left t :=
      Change.left_of_value (value_change_ne (Ne.symm hn))
    have hb : b.left (t.change a) = b.left t := Change.left_of_value (value_change_ne hn)
    intro name
    rw [get?_change, get?_change, get?_change, get?_change, ha, hb]
    split
    · rename_i hm
      rw [if_neg fun hb => hn ((eq_of_beq hm).symm.trans (eq_of_beq hb))]
    · rfl

theorem changes_change_comm (h : ∀ b ∈ l, a.Apart b) (t : Table) :
    ((t.change a).changes l).Alike ((t.changes l).change a) := by
  induction l generalizing t with
  | nil => exact .refl _
  | cons b l ih =>
      have hb := (change_comm (h b List.mem_cons_self) t).changes l
      exact hb.trans (ih (fun c hc => h c (List.mem_cons_of_mem b hc)) (t.change b))

/-- **Changes that do not meet commute.** -/
theorem changes_comm (h : ∀ a ∈ l, ∀ b ∈ m, a.Apart b) (t : Table) :
    ((t.changes l).changes m).Alike ((t.changes m).changes l) := by
  induction l generalizing t with
  | nil => exact .refl _
  | cons a l ih =>
      have ha := changes_change_comm (h a List.mem_cons_self) t
      exact (ih (fun c hc => h c (List.mem_cons_of_mem a hc)) (t.change a)).trans (ha.changes l)

/-! ### Changes that only create names -/

theorem value_changes_of_creates (h : ∀ a ∈ l, a.creates = true) (t : Table) (name : String) :
    (t.changes l).value name = t.value name :=
  value_changes_of fun a ha _ => h a ha

/-- The name of a change is there after it. -/
theorem isSome_get?_of_mem (h : a ∈ l) (t : Table) :
    ((t.changes l).get? a.name).isSome = true := by
  induction l generalizing t with
  | nil => cases h
  | cons b l ih =>
      rcases List.mem_cons.mp h with rfl | h
      · refine isSome_get?_changes ?_ l
        rw [get?_change, if_pos (beq_self_eq_true _)]
        rfl
      · exact ih h (t.change b)

/-- The names after some changes are those before, and those the changes are about. -/
theorem isSome_get?_changes_iff :
    ((t.changes l).get? name).isSome = true ↔
      (t.get? name).isSome = true ∨ name ∈ l.map Change.name := by
  constructor
  · intro h
    induction l generalizing t with
    | nil => exact .inl h
    | cons a l ih =>
        rw [List.map_cons, List.mem_cons]
        rcases ih h with hs | hm
        · rw [get?_change] at hs
          split at hs
          · rename_i hn
            exact .inr (.inl (eq_of_beq hn))
          · exact .inl hs
        · exact .inr (.inr hm)
  · rintro (h | h)
    · exact isSome_get?_changes h l
    · obtain ⟨a, ha, rfl⟩ := List.mem_map.mp h
      exact isSome_get?_of_mem ha t

/-- There is nothing to create where every name is there. -/
theorem changes_eq_self (h : ∀ a ∈ l, a.creates = true ∧ (t.get? a.name).isSome = true) :
    t.changes l = t := by
  induction l with
  | nil => rfl
  | cons a l ih =>
      obtain ⟨hc, hs⟩ := h a List.mem_cons_self
      have ha : t.change a = t := by
        cases a with
        | touch => exact if_pos hs
        | set => cases hc
      rw [changes_cons, ha]
      exact ih fun b hb => h b (List.mem_cons_of_mem a hb)

/-- **Names are created once.** -/
theorem changes_again (h : ∀ a ∈ l, a.creates = true) (t : Table) :
    (t.changes l).changes l = t.changes l :=
  changes_eq_self fun a ha => ⟨h a ha, isSome_get?_of_mem ha t⟩

end DeskCalculator.Table

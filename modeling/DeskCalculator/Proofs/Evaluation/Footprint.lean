import DeskCalculator.Proofs.Evaluation.Enclosure

/-!
# Evaluation — A statement touches only the names it mentions

An evaluation changes the table name by name: it creates the names it reads, and stores the names it
takes directly before a `=`.  Act by act, each name taken is the name of one change
(`Enacts.names_perm`), and each name taken before a `=` is that of one store, whatever becomes of the
right-hand side (`Enacts.stored_perm`).  Neither says in which order: the stores of nested assignments
come from the inside out.

So the names of the table afterwards are the old ones and those taken (`Enacts.mem_names_iff`), and a
name that is not taken before a `=` reads as it did (`Enacts.value_eq`).  For a name that was there this
is its value, and for one that was not it is zero.  One that is taken before a `=` holds the value of the
last store to it (`Enacts.exists_last_store`), which is the value its right-hand side has there.
-/

namespace DeskCalculator

open Table (Change)

namespace Kind

/-- The name, if the token is one. -/
def name? : Kind → Option String
  | .name word => some word
  | _          => none

/-- The name that a token gives a value to, before a token of the kind `next`. -/
def target? : Kind → (next : Option Kind) → Option String
  | .name word, some .assign => some word
  | _,          _            => none

/-- The names directly followed by a `=`, one for each place where this is so. -/
def assigned : List Kind → List String
  | []        => []
  | k :: rest => (k.target? rest.head?).toList ++ assigned rest

theorem name?_eq_some_iff {k : Kind} {name : String} : k.name? = some name ↔ k = .name name := by
  cases k <;> simp [name?]

theorem name?_of_isPlain {k : Kind} (h : k.isPlain = true) : k.name? = none := by
  cases k <;> first | rfl | cases h

theorem target?_of_name? {k : Kind} (h : k.name? = none) (next : Option Kind) :
    k.target? next = none := by
  cases k <;> first | rfl | cases h

theorem target?_of_ne {next : Option Kind} (h : next ≠ some .assign) (k : Kind) :
    k.target? next = none := by
  unfold target?
  split
  · exact absurd rfl h
  · rfl

theorem assigned_cons {k : Kind} {rest : List Kind} (h : k.target? rest.head? = none) :
    assigned (k :: rest) = assigned rest := by
  rw [assigned, h]
  rfl

theorem assigned_append {kinds more : List Kind} (h : more.head? ≠ some .assign) :
    assigned (kinds ++ more) = assigned kinds ++ assigned more := by
  induction kinds with
  | nil => rfl
  | cons k kinds ih =>
      have ht : k.target? (kinds ++ more).head? = k.target? kinds.head? := by
        cases kinds with
        | nil => exact (target?_of_ne h k).trans (by cases k <;> rfl)
        | cons => rfl
      rw [List.cons_append, assigned, assigned, ih, ht, List.append_assoc]

end Kind

/-- The name that is given a value. -/
def Table.Change.stored? : Change → Option String
  | .touch _    => none
  | .set name _ => some name

/-- Of the stores to a name, one is the last. -/
theorem Calculator.Act.exists_last {acts : List Calculator.Act} {name : String}
    (h : name ∈ (changes acts).filterMap Change.stored?) :
    ∃ front value back, acts = front ++ .change (.set name value) :: back ∧
      name ∉ (changes back).filterMap Change.stored? := by
  induction acts with
  | nil => cases h
  | cons a acts ih =>
      by_cases hl : name ∈ (changes acts).filterMap Change.stored?
      · obtain ⟨front, value, back, rfl, hb⟩ := ih hl
        exact ⟨a :: front, value, back, rfl, hb⟩
      · -- no store comes later, so this act is the store
        rw [changes_cons, List.filterMap_append, List.mem_append] at h
        have ha := h.resolve_right hl
        match a, ha with
        | .change (.set other value), ha =>
            obtain rfl : name = other := by simpa [Change.stored?] using ha
            exact ⟨[], value, acts, rfl, hl⟩

namespace Calculator.Enacts
variable {c c' : Calculator} {acts : List Act} (h : c.Enacts acts c')
include h

/-- A `=` is taken only behind a name. -/
theorem head?_ne_assign : (Act.kinds acts).head? ≠ some .assign := by
  induction h with
  | done => nofun
  | @plain c _ _ hk =>
      intro ha
      have hc : c.kind = .assign := Option.some.inj ha
      rw [hc] at hk
      cases hk
  | report _ _ ih => exact ih
  | reading hk | assignment hk | group hk | unclosed hk =>
      intro ha
      exact absurd (hk.symm.trans (Option.some.inj ha)) nofun

/-- Each name taken is created or stored, once. -/
theorem names_perm : ((Act.changes acts).map Change.name).Perm
    ((Act.kinds acts).filterMap Kind.name?) := by
  induction h with
  | done => exact .refl _
  | plain hk _ ih => simpa [kind_current, Kind.name?_of_isPlain hk] using ih
  | report _ _ ih => exact ih
  | reading hk _ _ ih => simpa [kind_current, hk, Kind.name?, Change.name] using ih
  | @assignment _ _ _ _ _ name _ hk ha _ _ _ ihi ih =>
      simpa [List.filterMap_cons, kind_current, hk, ha, Kind.name?, Change.name] using
        List.perm_middle.trans ((ihi.append ih).cons name)
  | group hk _ hc _ _ ihi ih =>
      simpa [List.filterMap_cons, kind_current, hk, hc, Kind.name?] using ihi.append ih
  | unclosed hk _ _ _ _ ihi ih =>
      simpa [List.filterMap_cons, kind_current, hk, Kind.name?] using ihi.append ih

/-- Each name taken before a `=` is stored, once. -/
theorem stored_perm : ((Act.changes acts).filterMap Change.stored?).Perm
    (Kind.assigned (Act.kinds acts)) := by
  induction h with
  | done => exact .refl _
  | plain hk _ ih =>
      have hn := Kind.target?_of_name? (Kind.name?_of_isPlain hk)
      exact ih.trans (.of_eq (Kind.assigned_cons (hn _)).symm)
  | report _ _ ih => exact ih
  | reading _ _ h ih =>
      exact ih.trans (.of_eq (Kind.assigned_cons (Kind.target?_of_ne h.head?_ne_assign _)).symm)
  | @assignment _ _ _ _ _ name _ hk ha _ _ h ihi ih =>
      -- the name stands in front of the right-hand side, and its store behind the stores of that
      simpa [kind_current, hk, ha, Kind.assigned, Kind.target?, Change.stored?,
        Kind.assigned_append h.head?_ne_assign] using
        List.perm_middle.trans ((ihi.append ih).cons name)
  | @group _ _ _ _ acts _ hk _ hc _ _ ihi ih =>
      have hn : (Kind.closeParen :: Act.kinds acts).head? ≠ some .assign := nofun
      simpa [kind_current, hk, hc, Kind.assigned, Kind.target?, Kind.assigned_append hn] using ihi.append ih
  | unclosed hk _ _ _ h ihi ih =>
      simpa [kind_current, hk, Kind.assigned, Kind.target?, Kind.assigned_append h.head?_ne_assign] using
        ihi.append ih

/-! ### What this does to the table -/

theorem table : c'.table = c.table.changes (Act.changes acts) := by
  rw [h.eq_enact, table_enact]

variable {name : String}

/-- The names there are those that were there, and those taken. -/
theorem mem_names_iff :
    name ∈ c'.table.names ↔ name ∈ c.table.names ∨ .name name ∈ Act.kinds acts := by
  have hm : name ∈ (Act.changes acts).map Change.name ↔ .name name ∈ Act.kinds acts := by
    simp [h.names_perm.mem_iff, List.mem_filterMap, Kind.name?_eq_some_iff]
  rw [Table.mem_names, Table.mem_names, h.table, Table.isSome_get?_changes_iff, hm]

/-- A name that is not taken before a `=` reads as it did. -/
theorem value_eq (hn : name ∉ Kind.assigned (Act.kinds acts)) :
    c'.table.value name = c.table.value name := by
  rw [h.table]
  refine Table.value_changes_of fun a ha hname => ?_
  cases a with
  | touch => rfl
  | set other value =>
      obtain rfl : other = name := hname
      exact absurd (h.stored_perm.mem_iff.mp (List.mem_filterMap.mpr ⟨_, ha, rfl⟩)) hn

/-- A name that is taken before a `=` holds the value of the last store to it. -/
theorem exists_last_store (hn : name ∈ Kind.assigned (Act.kinds acts)) :
    ∃ front value back, acts = front ++ .change (.set name value) :: back ∧
      name ∉ (Act.changes back).filterMap Change.stored? ∧ c'.table.get? name = some value := by
  obtain ⟨front, value, back, rfl, hb⟩ := Act.exists_last (h.stored_perm.mem_iff.mpr hn)
  have hc : Act.changes (front ++ .change (.set name value) :: back) =
      Act.changes front ++ .set name value :: Act.changes back := by simp
  refine ⟨front, value, back, rfl, hb, ?_⟩
  rw [h.table, hc]
  refine Table.get?_changes_of_set fun a ha hname => ?_
  cases a with
  | touch => rfl
  | set other value =>
      obtain rfl : other = name := hname
      exact (hb (List.mem_filterMap.mpr ⟨_, ha, rfl⟩)).elim

end Calculator.Enacts

namespace Calculator

/-- **A statement touches only the names it mentions.**  An evaluation takes some of the tokens ahead,
without a gap, and does nothing to the table but the changes among its acts.  Afterwards the names of
the table are the old ones and those taken.  A name that was there and is not taken directly before a
`=` has the very value it had, and a new one has the value zero.  For each place where a name is taken
directly before a `=` there is one store to that name, and there are no others, whatever is wrong with
what stands behind the `=`.  Directly before a store are the name, the `=` and the acts of the right-hand
side, and the value stored is the one that this has there.  Afterwards the name holds the value of the
last store to it. -/
theorem evaluateFrom_footprint (c : Calculator) (lookahead : Lookahead) :
    let first := c.start lookahead
    let last := (c.evaluateFrom lookahead).2
    ∃ n acts,
      let kinds := (first.ahead n).map Token.kind
      first.Enacts acts last ∧
      Act.taken acts = first.ahead n ∧
      last.journal.tokens = c.journal.tokens ++ lookahead.fetched c ++ first.advance.ahead n ∧
      last.table = c.table.changes (Act.changes acts) ∧
      (∀ name, name ∈ last.table.names ↔ name ∈ c.table.names ∨ .name name ∈ kinds) ∧
      (∀ name value, c.table.get? name = some value → name ∉ Kind.assigned kinds →
        last.table.get? name = some value) ∧
      (∀ name, name ∈ last.table.names → name ∉ c.table.names → name ∉ Kind.assigned kinds →
        last.table.get? name = some 0) ∧
      ((Act.changes acts).filterMap Change.stored?).Perm (Kind.assigned kinds) ∧
      (∀ front name value back, acts = front ++ .change (.set name value) :: back →
        ∃ outer inner, front = outer ++ .take (first.enact outer).current ::
            .take (first.enact outer).advance.current :: inner ∧
          (first.enact outer).Assigning name inner value (first.enact front)) ∧
      (∀ name ∈ Kind.assigned kinds, ∃ front value back,
        acts = front ++ .change (.set name value) :: back ∧
        name ∉ (Act.changes back).filterMap Change.stored? ∧
        last.table.get? name = some value) := by
  intro first last
  obtain ⟨n, acts, h, ha, ht⟩ := c.enacts_evaluateFrom lookahead
  have hfirst : first.table = c.table := by cases lookahead <;> rfl
  have hk : (first.ahead n).map Token.kind = Act.kinds acts := congrArg _ ha.symm
  have hnames (name : String) :
      name ∈ last.table.names ↔ name ∈ c.table.names ∨ .name name ∈ Act.kinds acts :=
    hfirst ▸ h.mem_names_iff
  have hvalue (name : String) (hn : name ∉ Kind.assigned (Act.kinds acts)) :
      last.table.value name = c.table.value name := hfirst ▸ h.value_eq hn
  refine ⟨n, acts, h, ha, ht, hfirst ▸ h.table, ?_⟩
  rw [hk]
  refine ⟨hnames, fun name value hv hn => ?_, fun name hm hold hn => ?_, h.stored_perm,
    fun front name value back hs => ?_, fun name hn => h.exists_last_store hn⟩
  · have hold : name ∈ c.table.names := Table.mem_names.mpr (by rw [hv]; rfl)
    have hs := Table.mem_names.mp ((hnames name).mpr (.inl hold))
    rw [Table.get?_eq_value hs, hvalue name hn, Table.value, hv]
    rfl
  · rw [Table.get?_eq_value (Table.mem_names.mp hm), hvalue name hn,
      Table.value_of_not_isSome (mt Table.mem_names.mpr hold)]
  · obtain ⟨outer, _, rfl, inner, rfl, hassign⟩ := h.accounted front _ back hs
    rw [← enact_append] at hassign
    exact ⟨outer, inner, rfl, hassign⟩

end Calculator

end DeskCalculator

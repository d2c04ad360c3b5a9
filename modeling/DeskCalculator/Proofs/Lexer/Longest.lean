import DeskCalculator.Proofs.Lexer.Denotation

/-!
# Tokens — The longest match

The numeral in front of a text is the longest one there is: every numeral the text begins with is a
prefix of it (`Numeral.read?_longest`).  A text that is cut short therefore begins with the same
numeral, as long as it is not cut inside of it (`Numeral.read?_cut`), and so it is with every
lexeme (`Lexeme.startingWith_cut`): an exponent mark whose digits are cut off belongs to the
numeral neither before nor after.
-/

namespace DeskCalculator

/-- The exponents a text begins with are prefixes of the one that is read. -/
theorem Exponent.read?_longest {e : Exponent} (h : e.Written) (rest : List Char) :
    ∃ m, read? (e.text ++ rest) = some m ∧ e.text <+: m.text := by
  have ht : e.text ++ rest = e.mark :: (e.sign.toList ++ (e.digits ++ rest)) :=
    congrArg (e.mark :: ·) (List.append_assoc _ _ _)
  have hd : (e.digits ++ rest).takeWhile Char.isDigit = e.digits ++ rest.takeWhile Char.isDigit :=
    List.takeWhile_append_of_pos h.digits
  obtain ⟨d, digits, hc⟩ := List.exists_cons_of_ne_nil h.ne_nil
  refine ⟨⟨e.mark, e.sign, e.digits ++ rest.takeWhile Char.isDigit⟩, ?_, ?_⟩
  · rw [ht, read?, if_pos h.mark, splitSign_text h]
    dsimp only
    rw [hd, hc]
    rfl
  · exact (List.prefix_cons_inj _).mpr
      ((List.prefix_append_right_inj _).mpr (List.prefix_append _ _))

theorem Exponent.head_text_append {e : Exponent} (h : e.Written) (rest : List Char) :
    ∀ c ∈ (e.text ++ rest).head?, c.isDigit = false := by
  rintro c ⟨⟩
  exact not_isDigit_of_mark h.mark

/-- The numerals a text begins with are prefixes of the one that is read. -/
theorem Numeral.read?_longest {n : Numeral} (h : n.Written) (rest : List Char) :
    ∃ m, read? (n.text ++ rest) = some m ∧ n.text <+: m.text := by
  obtain ⟨whole, fraction, exponent⟩ := n
  obtain ⟨hw, hf, hd, he⟩ := h
  dsimp only at hw hf hd he
  -- only the last part of the numeral may go on into the rest
  cases fraction with
  | none =>
      cases exponent with
      | none =>
          have ht : text ⟨whole, none, none⟩ = whole := List.append_nil whole
          have hn : whole ≠ [] := by
            refine hd.resolve_right ?_
            rintro ⟨f, hf, -⟩
            cases hf
          rw [ht]
          exact ⟨_, read?_of_parts (List.takeWhile_append_of_pos hw) rfl rfl
            (.inl (List.append_ne_nil_of_left_ne_nil hn _)),
            (List.prefix_append _ _).trans (List.prefix_append _ _)⟩
      | some e =>
          have ht : text ⟨whole, none, some e⟩ ++ rest = whole ++ (e.text ++ rest) :=
            List.append_assoc _ _ _
          obtain ⟨m, hm, hp⟩ := Exponent.read?_longest (he e rfl) rest
          obtain ⟨hw', hr⟩ := span_digits hw _ (Exponent.head_text_append (he e rfl) rest)
          refine ⟨⟨whole, none, some m⟩, ?_, (List.prefix_append_right_inj whole).mpr hp⟩
          rw [ht, read?_of_parts hw' hr (splitFraction_of_mark (he e rfl).mark _) hd]
          exact congrArg (fun x => some (Numeral.mk whole none x)) hm
  | some f =>
      have hf' := hf f rfl
      have hs (after : List Char) : splitFraction ('.' :: (f ++ after)) =
          (some (f ++ after.takeWhile Char.isDigit), after.dropWhile Char.isDigit) := by
        rw [splitFraction, List.takeWhile_append_of_pos hf', List.dropWhile_append_of_pos hf']
      have hp (after : List Char) : ∀ c ∈ ('.' :: (f ++ after)).head?, c.isDigit = false := by
        rintro c ⟨⟩
        rfl
      cases exponent with
      | none =>
          have ht : text ⟨whole, some f, none⟩ ++ rest = whole ++ '.' :: (f ++ rest) := by
            simp [text]
          obtain ⟨hw', hr⟩ := span_digits hw _ (hp rest)
          have hd' : whole ≠ [] ∨ ∃ g ∈ some (f ++ rest.takeWhile Char.isDigit), g ≠ [] := by
            refine hd.imp id ?_
            rintro ⟨g, ⟨⟩, hn⟩
            exact ⟨_, rfl, List.append_ne_nil_of_left_ne_nil hn _⟩
          refine ⟨_, ht ▸ read?_of_parts hw' hr (hs rest) hd', ?_⟩
          refine (List.prefix_append_right_inj whole).mpr ?_
          simp
      | some e =>
          have ht : text ⟨whole, some f, some e⟩ ++ rest =
              whole ++ '.' :: (f ++ (e.text ++ rest)) := by
            simp [text]
          obtain ⟨m, hm, hp'⟩ := Exponent.read?_longest (he e rfl) rest
          obtain ⟨hw', hr⟩ := span_digits hw _ (hp (e.text ++ rest))
          obtain ⟨ht', hd'⟩ :=
            span_digits (List.forall_mem_nil _) _ (Exponent.head_text_append (he e rfl) rest)
          have hs' := hs (e.text ++ rest)
          rw [List.nil_append] at ht' hd'
          rw [ht', hd', List.append_nil] at hs'
          refine ⟨⟨whole, some f, some m⟩, ?_, (List.prefix_append_right_inj whole).mpr
            ((List.prefix_append_right_inj ('.' :: f)).mpr hp')⟩
          rw [ht, read?_of_parts hw' hr hs' hd, hm]

/-- What a text begins with, a longer text begins with too. -/
theorem Numeral.read?_mono {u v : List Char} (hu : u <+: v) {n : Numeral} (h : read? u = some n) :
    ∃ m, read? v = some m ∧ n.text <+: m.text := by
  have hp := read?_prefix h
  obtain ⟨rest, rfl⟩ := hp.trans hu
  exact read?_longest (written_of_read? h) rest

/-- A text that is cut behind its numeral, or has none. -/
theorem Numeral.read?_cut {u v : List Char} (hu : u <+: v)
    (h : ∀ n ∈ read? v, n.text <+: u) : read? u = read? v := by
  cases hv : read? v with
  | none =>
      cases hm : read? u with
      | none => rfl
      | some m =>
          obtain ⟨n, hn, -⟩ := read?_mono hu hm
          exact absurd (hv.symm.trans hn) nofun
  | some n =>
      obtain ⟨rest, hr⟩ := h n hv
      obtain ⟨m, hm, hp⟩ := read?_longest (written_of_read? hv) rest
      rw [hr] at hm
      obtain ⟨n', hn, hp'⟩ := read?_mono hu hm
      cases Option.some.inj (hv.symm.trans hn)
      -- of the two numerals each is a prefix of the other, and a text is read in one way
      have ht : n.text = m.text := hp.eq_of_length_le hp'.length_le
      have hm' := read?_text (written_of_read? hm)
      rw [← ht, read?_text (written_of_read? hv)] at hm'
      rw [hm, hm']

theorem takeWhile_cut {α : Type} {p : α → Bool} {u v : List α} (hu : u <+: v)
    (h : v.takeWhile p <+: u) : u.takeWhile p = v.takeWhile p := by
  obtain ⟨w, rfl⟩ := hu
  rw [List.takeWhile_append] at h ⊢
  split at h
  · rename_i hl
    have hw : u ++ w.takeWhile p = u := h.eq_of_length_le (List.prefix_append _ _).length_le
    rw [if_pos hl, hw]
    exact (List.takeWhile_prefix p).eq_of_length hl
  · rename_i hl
    rw [if_neg hl]

/-- A text that is cut behind its first lexeme begins with that lexeme. -/
theorem Lexeme.startingWith_cut {c : Char} {u rest : List Char} (hu : u <+: rest)
    (h : (startingWith c rest).text <+: c :: u) : startingWith c u = startingWith c rest := by
  by_cases hs : Separates c
  · rw [hs.startingWith, hs.startingWith]
  cases ho : Kind.ofOperator? c with
  | some k =>
      have hn : ¬(c = '\n' ∨ c = ';') := hs
      rw [startingWith, startingWith, if_neg hn, if_neg hn, ho]
  | none =>
      have hc : c :: u <+: c :: rest := (List.prefix_cons_inj c).mpr hu
      rw [startingWith_of_word hs ho] at h ⊢
      rw [startingWith_of_word hs ho]
      split
      · rename_i hd
        rw [if_pos hd] at h
        rw [Numeral.read?_cut hc]
        intro n hn
        rw [hn] at h
        exact h
      · rename_i hd
        rw [if_neg hd] at h
        split
        · rename_i ha
          rw [if_pos ha] at h
          rw [takeWhile_cut hu ((List.prefix_cons_inj c).mp h)]
        · rfl

end DeskCalculator

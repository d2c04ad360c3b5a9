import DeskCalculator.Proofs.Lexer.Numeral
import DeskCalculator.Proofs.Lexer.Position
import DeskCalculator.Proofs.Lexer.Separator

/-!
# Tokens — What a text says of its kind

The kind of a token is a matter of the characters it covers (`Denotes`): a separator, an operator, a
name with its letters, a numeral with its value, or a single character that starts no token.  Names
and numerals reach as far as they can, no blank is part of a token, and a separator is always a token
of its own.  The lexeme in front of a text has the kind its characters say (`denotes_startingWith`),
and a text says no more than one kind (`Denotes.kind_eq`).
-/

namespace DeskCalculator

/-- A token that covers `text`, and has `after` behind it on the line, is of this kind. -/
inductive Denotes (after : List Char) : List Char → Kind → Prop where
  | separator {c : Char} (hc : Separates c) : Denotes after [c] .terminator
  | operator {c : Char} {k : Kind} (hk : Kind.ofOperator? c = some k) : Denotes after [c] k
  | name {c : Char} {rest : List Char} (hc : c.isAlpha = true)
      (hr : ∀ d ∈ rest, d.isAlphanum = true) (ha : ∀ d ∈ after.head?, d.isAlphanum = false) :
      Denotes after (c :: rest) (.name (String.ofList (c :: rest)))
  | number {c : Char} {rest : List Char} {n : Numeral} (hc : c.isDigit = true ∨ c = '.')
      (hd : ∃ d ∈ c :: rest, d.isDigit = true) (hn : n.Written) (ht : n.text = c :: rest)
      (ha : ∀ d ∈ after.head?, d.isDigit = false) : Denotes after (c :: rest) (.number n.value)
  | bad {c : Char} (hs : ¬ Separates c) (ho : Kind.ofOperator? c = none) (ha : c.isAlpha = false)
      (hd : c.isDigit = false) (hb : isBlank c = false) : Denotes after [c] (.bad c)

theorem Numeral.Written.exists_digit {n : Numeral} (h : n.Written) :
    ∃ d ∈ n.text, d.isDigit = true := by
  rcases h.digit with hw | ⟨f, hf, hn⟩
  · obtain ⟨d, rest, hr⟩ := List.exists_cons_of_ne_nil hw
    have hm : d ∈ n.whole := hr ▸ List.mem_cons_self
    exact ⟨d, List.mem_append_left _ hm, h.whole d hm⟩
  · obtain ⟨d, rest, rfl⟩ := List.exists_cons_of_ne_nil hn
    refine ⟨d, List.mem_append_right _ (List.mem_append_left _ ?_),
      h.fraction _ hf d List.mem_cons_self⟩
    rw [hf]
    exact List.mem_cons_of_mem _ List.mem_cons_self

/-- A numeral starts with a digit or with its point. -/
theorem Numeral.Written.head_text {n : Numeral} (h : n.Written) {c : Char} {rest : List Char}
    (ht : n.text = c :: rest) : c.isDigit = true ∨ c = '.' := by
  cases hw : n.whole with
  | cons d whole =>
      rw [text, hw, List.cons_append] at ht
      exact .inl ((List.cons.inj ht).1 ▸ h.whole d (hw ▸ List.mem_cons_self))
  | nil =>
      obtain ⟨f, hf, -⟩ := h.digit.resolve_left fun hn => hn hw
      rw [text, hw, hf] at ht
      exact .inr (List.cons.inj ht).1.symm

theorem Numeral.read?_ne_none {c : Char} (h : c.isDigit = true) (rest : List Char) :
    Numeral.read? (c :: rest) ≠ none := by
  simp [Numeral.read?, h]

/-- The lexeme in front of a text has the kind its characters say. -/
theorem denotes_startingWith {c : Char} (rest : List Char) (hb : isBlank c = false) :
    Denotes ((c :: rest).drop (Lexeme.startingWith c rest).text.length)
      (Lexeme.startingWith c rest).text (Lexeme.startingWith c rest).kind := by
  unfold Lexeme.startingWith
  split
  · exact .separator ‹_›
  · rename_i hs
    split
    · exact .operator ‹_›
    · rename_i ho
      split
      · rename_i hc
        split
        · rename_i n hn
          have hw := Numeral.written_of_read? hn
          obtain ⟨d, text, ht⟩ := List.exists_cons_of_ne_nil (Lexeme.text_numeral_ne_nil hn)
          have hp := Numeral.read?_prefix hn
          have hd := hw.exists_digit
          have ha := Numeral.head?_drop_text hn
          dsimp only
          rw [ht] at hp hd ha ⊢
          cases (List.cons_prefix_cons.mp hp).1
          exact .number hc hd hw ht ha
        · rename_i hn
          obtain rfl := hc.resolve_left fun hd => Numeral.read?_ne_none hd rest hn
          exact .bad hs ho rfl rfl hb
      · rename_i hc
        obtain ⟨hd, hp⟩ := not_or.mp hc
        split
        · refine .name ‹_› (fun d => List.mem_takeWhile_imp) ?_
          rw [List.length_cons, List.drop_succ_cons, drop_length_takeWhile]
          exact head?_dropWhile_eq_false _ _
        · exact .bad hs ho (eq_false_of_ne_true ‹_›) (eq_false_of_ne_true hd) hb

theorem not_isAlphanum_of_isBlank {c : Char} (h : isBlank c = true) : c.isAlphanum = false := by
  rcases eq_of_isBlank h with rfl | rfl | rfl | rfl | rfl <;> rfl

theorem not_ofNumeral_of_isBlank {c : Char} (h : isBlank c = true) : ¬ ofNumeral c := by
  rcases eq_of_isBlank h with rfl | rfl | rfl | rfl | rfl <;> simp [ofNumeral]

theorem Separates.not_ofNumeral {c : Char} (h : Separates c) : ¬ ofNumeral c := by
  rcases h with rfl | rfl <;> simp [ofNumeral]

theorem Separates.ofOperator? {c : Char} (h : Separates c) : Kind.ofOperator? c = none := by
  rcases h with rfl | rfl <;> rfl

theorem ofOperator?_of_isBlank {c : Char} (h : isBlank c = true) : Kind.ofOperator? c = none := by
  rcases eq_of_isBlank h with rfl | rfl | rfl | rfl | rfl <;> rfl

namespace Denotes
variable {after text : List Char} {k : Kind} (h : Denotes after text k)
include h

theorem ne_nil : text ≠ [] := by
  cases h <;> nofun

/-- No blank is part of a token. -/
theorem not_blank : ∀ c ∈ text, isBlank c = false := by
  intro c hm
  refine eq_false_of_ne_true fun hb => ?_
  cases h with
  | separator hc =>
      cases List.mem_singleton.mp hm
      exact absurd (hc.not_blank.symm.trans hb) nofun
  | operator hk =>
      cases List.mem_singleton.mp hm
      exact absurd ((ofOperator?_of_isBlank hb).symm.trans hk) nofun
  | name hc hr ha =>
      have hn := not_isAlphanum_of_isBlank hb
      rcases List.mem_cons.mp hm with rfl | hm
      · exact absurd (hn.symm.trans (Bool.or_eq_true_iff.mpr (.inl hc))) nofun
      · exact absurd (hn.symm.trans (hr c hm)) nofun
  | number hc hd hn ht ha =>
      exact not_ofNumeral_of_isBlank hb (Numeral.ofNumeral_of_mem hn c (ht ▸ hm))
  | bad hs ho ha hd hb' =>
      cases List.mem_singleton.mp hm
      exact absurd (hb'.symm.trans hb) nofun

/-- A separator is a token of its own. -/
theorem eq_of_separates {c : Char} (hm : c ∈ text) (hs : Separates c) :
    text = [c] ∧ k = .terminator := by
  cases h with
  | separator hc =>
      cases List.mem_singleton.mp hm
      exact ⟨rfl, rfl⟩
  | operator hk =>
      cases List.mem_singleton.mp hm
      exact absurd (hs.ofOperator?.symm.trans hk) nofun
  | name hc hr ha =>
      have hn := hs.delimits.1
      rcases List.mem_cons.mp hm with rfl | hm
      · exact absurd (hn.symm.trans (Bool.or_eq_true_iff.mpr (.inl hc))) nofun
      · exact absurd (hn.symm.trans (hr c hm)) nofun
  | number hc hd hn ht ha => exact absurd (Numeral.ofNumeral_of_mem hn c (ht ▸ hm)) hs.not_ofNumeral
  | bad hs' =>
      cases List.mem_singleton.mp hm
      exact absurd hs hs'

end Denotes

/-- A terminator is a separator. -/
theorem Denotes.separator_of_terminator {after text : List Char}
    (h : Denotes after text .terminator) : ∃ c, text = [c] ∧ Separates c := by
  generalize hk : Kind.terminator = k at h
  cases h with
  | separator hc => exact ⟨_, rfl, hc⟩
  | @operator c k ho =>
      subst hk
      revert ho
      unfold Kind.ofOperator?
      split <;> nofun
  | name | number | bad => cases hk

/-! ### One text, one kind -/

theorem ofOperator?_of_isAlphanum {c : Char} (h : c.isAlphanum = true) :
    Kind.ofOperator? c = none := by
  unfold Kind.ofOperator?
  split <;> first | rfl | exact absurd h (by decide)

theorem not_separates_of_isAlphanum {c : Char} (h : c.isAlphanum = true) : ¬ Separates c :=
  fun hs => absurd (hs.delimits.1.symm.trans h) nofun

theorem not_separates_of_ofOperator? {c : Char} {k : Kind} (h : Kind.ofOperator? c = some k) :
    ¬ Separates c := fun hs => absurd (hs.ofOperator?.symm.trans h) nofun

theorem not_isDigit_of_isAlpha {c : Char} (h : c.isAlpha = true) : ¬(c.isDigit = true ∨ c = '.') := by
  rintro (hd | rfl)
  · have h9 : c.val ≤ '9'.val := of_decide_eq_true (Bool.and_eq_true_iff.mp hd).2
    have hA : 'A'.val ≤ c.val := by
      rcases Bool.or_eq_true_iff.mp h with hu | hl
      · exact (of_decide_eq_true (p := 'A'.val ≤ c.val ∧ c.val ≤ 'Z'.val) hu).1
      · have ha : 'a'.val ≤ c.val := of_decide_eq_true (Bool.and_eq_true_iff.mp hl).1
        exact UInt32.le_trans (by decide) ha
    exact absurd (UInt32.le_trans hA h9) (by decide)
  · exact absurd h (by decide)

/-- The lexemes that start with neither a separator nor an operator. -/
theorem Lexeme.startingWith_of_word {c : Char} (hs : ¬ Separates c)
    (ho : Kind.ofOperator? c = none) (rest : List Char) :
    startingWith c rest =
      if c.isDigit ∨ c = '.' then
        match Numeral.read? (c :: rest) with
        | some numeral => ⟨.number numeral.value, numeral.text⟩
        | none         => ⟨.bad c, [c]⟩
      else if c.isAlpha then
        ⟨.name (String.ofList (c :: rest.takeWhile Char.isAlphanum)),
          c :: rest.takeWhile Char.isAlphanum⟩
      else ⟨.bad c, [c]⟩ := by
  have hn : ¬(c = '\n' ∨ c = ';') := hs
  unfold startingWith
  rw [if_neg hn]
  cases hk : Kind.ofOperator? c with
  | none => rfl
  | some kind => exact absurd (ho.symm.trans hk) nofun

/-- The lexemes that start with a digit or a point. -/
theorem Lexeme.startingWith_of_digit {c : Char} (h : c.isDigit = true ∨ c = '.') (rest : List Char) :
    startingWith c rest =
      match Numeral.read? (c :: rest) with
      | some numeral => ⟨.number numeral.value, numeral.text⟩
      | none         => ⟨.bad c, [c]⟩ := by
  have hs : ¬ Separates c ∧ Kind.ofOperator? c = none := by
    rcases h with hd | rfl
    · have hn : c.isAlphanum = true := Bool.or_eq_true_iff.mpr (.inr hd)
      exact ⟨not_separates_of_isAlphanum hn, ofOperator?_of_isAlphanum hn⟩
    · exact ⟨by simp [Separates], rfl⟩
  rw [startingWith_of_word hs.1 hs.2, if_pos h]

/-- The text of a token, on its own, is that token again. -/
theorem Denotes.startingWith {after rest : List Char} {c : Char} {k : Kind}
    (h : Denotes after (c :: rest) k) : Lexeme.startingWith c rest = ⟨k, c :: rest⟩ := by
  cases h with
  | separator hc => exact hc.startingWith []
  | operator hk =>
      have hn : ¬(c = '\n' ∨ c = ';') := not_separates_of_ofOperator? hk
      rw [Lexeme.startingWith, if_neg hn, hk]
  | name hc hr ha =>
      have hn : c.isAlphanum = true := Bool.or_eq_true_iff.mpr (.inl hc)
      rw [Lexeme.startingWith_of_word (not_separates_of_isAlphanum hn) (ofOperator?_of_isAlphanum hn),
        if_neg (not_isDigit_of_isAlpha hc), if_pos hc, List.takeWhile_eq_self_iff.mpr hr]
  | number hc hd hn ht ha =>
      have hr := Numeral.read?_text hn
      rw [ht] at hr
      rw [Lexeme.startingWith_of_digit hc, hr]
      dsimp only
      rw [ht]
  | bad hs ho ha hd hb =>
      rw [Lexeme.startingWith_of_word hs ho, if_neg (ne_true_of_eq_false ha)]
      split
      · rename_i hc
        obtain rfl := hc.resolve_left (ne_true_of_eq_false hd)
        rfl
      · rfl

/-- The text of a token decides its kind. -/
theorem Denotes.kind_eq {after after' text : List Char} {k k' : Kind} (h : Denotes after text k)
    (h' : Denotes after' text k') : k = k' := by
  obtain ⟨c, rest, rfl⟩ := List.exists_cons_of_ne_nil h.ne_nil
  exact congrArg Lexeme.kind (h.startingWith.symm.trans h'.startingWith)

end DeskCalculator

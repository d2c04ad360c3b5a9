import DeskCalculator.Proofs.Lexer.Delimiter
import Mathlib.Data.List.TakeWhile

/-!
# Tokens — The texts of numerals

Which texts are numerals: the mantissa is digits, perhaps with a point and more digits, and has at
least one digit; the exponent is a mark, perhaps a sign, and at least one digit (`Written`).  What is
read at the front of a text is such a numeral (`Numeral.written_of_read?`), it leaves no digit behind
it (`Numeral.head?_drop_text`), and the text of such a numeral reads back as that numeral and no other,
at the end of a text (`Numeral.read?_text`) and before anything that ends a word
(`Numeral.read?_text_append`).
-/

namespace DeskCalculator

/-- An exponent as it may stand in a text. -/
structure Exponent.Written (e : Exponent) : Prop where
  mark : e.mark = 'e' ∨ e.mark = 'E'
  sign : ∀ s ∈ e.sign, s = '+' ∨ s = '-'
  digits : ∀ d ∈ e.digits, d.isDigit = true
  ne_nil : e.digits ≠ []

/-- A numeral as it may stand in a text. -/
structure Numeral.Written (n : Numeral) : Prop where
  whole : ∀ d ∈ n.whole, d.isDigit = true
  fraction : ∀ f ∈ n.fraction, ∀ d ∈ f, d.isDigit = true
  digit : n.whole ≠ [] ∨ ∃ f ∈ n.fraction, f ≠ []
  exponent : ∀ e ∈ n.exponent, e.Written

/-! ### What is read is written -/

theorem Exponent.sign_splitSign (text : List Char) :
    ∀ s ∈ (splitSign text).1, s = '+' ∨ s = '-' := by
  unfold splitSign
  split
  · rintro s ⟨⟩
    exact .inl rfl
  · rintro s ⟨⟩
    exact .inr rfl
  · nofun

theorem Exponent.written_of_read? {text : List Char} {e : Exponent}
    (h : Exponent.read? text = some e) : e.Written := by
  cases text with
  | nil => cases h
  | cons mark rest =>
      simp only [read?] at h
      split at h
      · rename_i hm
        split at h
        · cases h
        · rename_i hd
          cases h
          exact ⟨hm, sign_splitSign rest, fun _ => List.mem_takeWhile_imp, hd⟩
      · cases h

theorem Numeral.digits_splitFraction (text : List Char) :
    ∀ f ∈ (splitFraction text).1, ∀ d ∈ f, d.isDigit = true := by
  unfold splitFraction
  split
  · rintro f ⟨⟩ d hd
    exact List.mem_takeWhile_imp hd
  · nofun

theorem Numeral.written_of_read? {text : List Char} {n : Numeral}
    (h : Numeral.read? text = some n) : n.Written := by
  have hf := digits_splitFraction (text.dropWhile Char.isDigit)
  simp only [Numeral.read?] at h
  generalize splitFraction (text.dropWhile Char.isDigit) = s at h hf
  obtain ⟨fraction, rest⟩ := s
  dsimp only at h hf
  split at h
  · cases h
  · rename_i hd
    cases h
    refine ⟨fun _ => List.mem_takeWhile_imp, hf, ?_, fun e => Exponent.written_of_read?⟩
    rw [Bool.and_eq_true, List.isEmpty_iff, List.isEmpty_iff, not_and_or] at hd
    refine hd.imp id fun hd => ?_
    cases fraction with
    | none => exact absurd rfl hd
    | some f => exact ⟨f, rfl, hd⟩

/-! ### What is written is read -/

/-- A run of digits ends where something else begins. -/
theorem span_digits {digits : List Char} (hd : ∀ d ∈ digits, d.isDigit = true) (rest : List Char)
    (hr : ∀ c ∈ rest.head?, c.isDigit = false) :
    (digits ++ rest).takeWhile Char.isDigit = digits ∧
      (digits ++ rest).dropWhile Char.isDigit = rest := by
  rw [List.takeWhile_append_of_pos hd, List.dropWhile_append_of_pos hd]
  cases rest with
  | nil => exact ⟨List.append_nil digits, rfl⟩
  | cons c rest =>
      have hc := hr c rfl
      rw [List.takeWhile_cons, List.dropWhile_cons, hc]
      exact ⟨List.append_nil digits, rfl⟩

theorem Exponent.splitSign_of_isDigit {d : Char} (h : d.isDigit = true) (rest : List Char) :
    splitSign (d :: rest) = (none, d :: rest) := by
  refine splitSign.eq_3 _ (fun _ e => ?_) fun _ e => ?_
  · rw [(List.cons.inj e).1] at h
    cases h
  · rw [(List.cons.inj e).1] at h
    cases h

theorem Exponent.splitSign_text {e : Exponent} (h : e.Written) (rest : List Char) :
    splitSign (e.sign.toList ++ (e.digits ++ rest)) = (e.sign, e.digits ++ rest) := by
  cases hs : e.sign with
  | none =>
      obtain ⟨d, digits, hd⟩ := List.exists_cons_of_ne_nil h.ne_nil
      rw [hd]
      exact splitSign_of_isDigit (h.digits d (hd ▸ List.mem_cons_self)) _
  | some s =>
      rcases h.sign s hs with rfl | rfl
      · rfl
      · rfl

theorem not_isDigit_of_mark {c : Char} (h : c = 'e' ∨ c = 'E') : c.isDigit = false := by
  rcases h with rfl | rfl <;> rfl

/-- An exponent is read as it is written, if no digit follows. -/
theorem Exponent.read?_text_append {e : Exponent} (h : e.Written) {rest : List Char}
    (hr : ∀ c ∈ rest.head?, c.isDigit = false) : read? (e.text ++ rest) = some e := by
  have ht : e.text ++ rest = e.mark :: (e.sign.toList ++ (e.digits ++ rest)) :=
    congrArg (e.mark :: ·) (List.append_assoc _ _ _)
  have hd := (span_digits h.digits rest hr).1
  obtain ⟨d, digits, hc⟩ := List.exists_cons_of_ne_nil h.ne_nil
  rw [ht, read?, if_pos h.mark, splitSign_text h]
  dsimp only
  rw [hd]
  cases e
  cases hc
  rfl

/-- What ends a word is not the mark of an exponent. -/
theorem Exponent.read?_eq_none {rest : List Char} (hr : ∀ c ∈ rest.head?, EndsWord c) :
    read? rest = none := by
  cases rest with
  | nil => rfl
  | cons c rest => exact if_neg (hr c rfl).not_exponent

/-- The exponent in front of what ends a word, if there is one. -/
theorem Exponent.read?_elim_append {x : Option Exponent} (h : ∀ e ∈ x, e.Written)
    {rest : List Char} (hr : ∀ c ∈ rest.head?, EndsWord c) :
    read? (x.elim [] text ++ rest) = x ∧
      ∀ c ∈ (x.elim [] text ++ rest).head?, c.isDigit = false ∧ c ≠ '.' := by
  cases x with
  | none => exact ⟨read?_eq_none hr, fun c hc => ⟨(hr c hc).not_isDigit, (hr c hc).2⟩⟩
  | some e =>
      refine ⟨read?_text_append (h e rfl) fun c hc => (hr c hc).not_isDigit, ?_⟩
      rintro c ⟨⟩
      refine ⟨not_isDigit_of_mark (h e rfl).mark, ?_⟩
      rcases (h e rfl).mark with hm | hm <;> rw [hm] <;> decide

/-- What is read of a text, part by part. -/
theorem Numeral.read?_of_parts {text whole rest after : List Char} {fraction : Option (List Char)}
    (hw : text.takeWhile Char.isDigit = whole) (hr : text.dropWhile Char.isDigit = rest)
    (hf : splitFraction rest = (fraction, after)) (hd : whole ≠ [] ∨ ∃ f ∈ fraction, f ≠ []) :
    read? text = some ⟨whole, fraction, Exponent.read? after⟩ := by
  have hm : ¬(whole.isEmpty && (fraction.getD []).isEmpty) := by
    rw [Bool.and_eq_true, List.isEmpty_iff, List.isEmpty_iff, not_and_or]
    refine hd.imp id fun ⟨f, hf, hn⟩ => ?_
    rwa [hf]
  rw [read?, hw, hr, hf]
  exact if_neg hm

theorem Numeral.splitFraction_of_mark {c : Char} (h : c = 'e' ∨ c = 'E') (rest : List Char) :
    splitFraction (c :: rest) = (none, c :: rest) := by
  rcases h with rfl | rfl <;> rfl

theorem Numeral.splitFraction_eq_none {rest : List Char} (hr : ∀ c ∈ rest.head?, c ≠ '.') :
    splitFraction rest = (none, rest) :=
  splitFraction.eq_2 _ fun _ e => hr '.' (by rw [e]; rfl) rfl

/-- A numeral is read as it is written, if a word ends behind it. -/
theorem Numeral.read?_text_append {n : Numeral} (h : n.Written) {rest : List Char}
    (hr : ∀ c ∈ rest.head?, EndsWord c) : read? (n.text ++ rest) = some n := by
  obtain ⟨hx, hh⟩ := Exponent.read?_elim_append h.exponent hr
  have hd := h.digit
  -- the digits in front end at the point, at the exponent, or with the numeral
  cases hf : n.fraction with
  | none =>
      have ht : n.text ++ rest = n.whole ++ (n.exponent.elim [] Exponent.text ++ rest) := by
        rw [text, hf, List.append_assoc]
        rfl
      obtain ⟨hw, hr⟩ := span_digits h.whole _ fun c hc => (hh c hc).1
      rw [hf] at hd
      rw [ht, read?_of_parts hw hr (splitFraction_eq_none fun c hc => (hh c hc).2) hd, hx, ← hf]
  | some f =>
      have ht : n.text ++ rest =
          n.whole ++ '.' :: (f ++ (n.exponent.elim [] Exponent.text ++ rest)) := by
        rw [text, hf]
        simp
      obtain ⟨hw, hr⟩ := span_digits h.whole
        ('.' :: (f ++ (n.exponent.elim [] Exponent.text ++ rest))) fun c hc => by
          cases hc
          rfl
      obtain ⟨hw', hr'⟩ := span_digits (h.fraction f hf) _ fun c hc => (hh c hc).1
      rw [hf] at hd
      have hs : splitFraction ('.' :: (f ++ (n.exponent.elim [] Exponent.text ++ rest))) =
          (some f, n.exponent.elim [] Exponent.text ++ rest) := by
        rw [splitFraction, hw', hr']
      rw [ht, read?_of_parts hw hr hs hd, hx, ← hf]

/-- The text of a numeral is read as that numeral. -/
theorem Numeral.read?_text {n : Numeral} (h : n.Written) : read? n.text = some n := by
  have hn : ∀ c ∈ ([] : List Char).head?, EndsWord c := nofun
  have hr := read?_text_append h hn
  rwa [List.append_nil] at hr

/-! ### A numeral takes all the digits it can -/

theorem head?_dropWhile_eq_false {α : Type} (p : α → Bool) (l : List α) :
    ∀ x ∈ (l.dropWhile p).head?, p x = false := by
  intro x hx
  have h := List.head?_dropWhile_not p l
  rw [Option.mem_def.mp hx] at h
  exact h

theorem drop_length_takeWhile {α : Type} (p : α → Bool) (l : List α) :
    l.drop (l.takeWhile p).length = l.dropWhile p := by
  have h : (l.takeWhile p ++ l.dropWhile p).drop (l.takeWhile p).length = l.dropWhile p :=
    List.drop_left
  rwa [List.takeWhile_append_dropWhile] at h

theorem drop_append_length_append {α : Type} (u v w : List α) :
    (u ++ v).drop (u ++ w).length = v.drop w.length := by
  rw [List.length_append, List.drop_length_add_append]

theorem Numeral.head?_splitFraction {text : List Char}
    (h : ∀ d ∈ text.head?, d.isDigit = false) :
    ∀ d ∈ (splitFraction text).2.head?, d.isDigit = false := by
  unfold splitFraction
  split
  · exact head?_dropWhile_eq_false _ _
  · exact h

theorem Exponent.head?_drop_text {text : List Char} (h : ∀ d ∈ text.head?, d.isDigit = false) :
    ∀ d ∈ (text.drop ((read? text).elim [] Exponent.text).length).head?, d.isDigit = false := by
  cases hr : read? text with
  | none => exact h
  | some e =>
      cases text with
      | nil => cases hr
      | cons mark rest =>
          simp only [read?] at hr
          split at hr
          · split at hr
            · cases hr
            · -- behind the sign the exponent is the digits at the front
              cases hr
              have hs := splitSign_append rest
              generalize splitSign rest = s at hs
              subst hs
              rw [Option.elim_some, text, List.length_cons, List.drop_succ_cons,
                drop_append_length_append, drop_length_takeWhile]
              exact head?_dropWhile_eq_false _ _
          · cases hr

/-- No digit stands behind a numeral. -/
theorem Numeral.head?_drop_text {text : List Char} {n : Numeral} (h : read? text = some n) :
    ∀ d ∈ (text.drop n.text.length).head?, d.isDigit = false := by
  have hw := List.takeWhile_append_dropWhile (p := Char.isDigit) (l := text)
  have hf := splitFraction_append (text.dropWhile Char.isDigit)
  have hh := head?_splitFraction (head?_dropWhile_eq_false Char.isDigit text)
  simp only [read?] at h
  split at h
  · cases h
  · cases h
    generalize splitFraction (text.dropWhile Char.isDigit) = s at hf hh
    rw [← hf] at hw
    generalize text.takeWhile Char.isDigit = whole at hw
    subst hw
    rw [text, drop_append_length_append, drop_append_length_append]
    exact Exponent.head?_drop_text hh

/-! ### The characters of a numeral -/

/-- A character that may stand in a numeral. -/
def ofNumeral (c : Char) : Prop := c.isDigit = true ∨ c ∈ ['.', 'e', 'E', '+', '-']

theorem Exponent.ofNumeral_of_mem {e : Exponent} (h : e.Written) : ∀ c ∈ e.text, ofNumeral c := by
  intro c hc
  rcases List.mem_cons.mp hc with rfl | hc
  · rcases h.mark with hm | hm <;> exact .inr (by rw [hm]; decide)
  · rcases List.mem_append.mp hc with hc | hc
    · rcases h.sign c (Option.mem_toList.mp hc) with rfl | rfl <;> exact .inr (by decide)
    · exact .inl (h.digits c hc)

theorem Numeral.ofNumeral_of_mem {n : Numeral} (h : n.Written) : ∀ c ∈ n.text, ofNumeral c := by
  intro c hc
  rcases List.mem_append.mp hc with hc | hc
  · exact .inl (h.whole c hc)
  · rcases List.mem_append.mp hc with hc | hc
    · cases hf : n.fraction with
      | none =>
          rw [hf] at hc
          cases hc
      | some f =>
          rw [hf] at hc
          rcases List.mem_cons.mp hc with rfl | hc
          · exact .inr (by decide)
          · exact .inl (h.fraction f hf c hc)
    · cases he : n.exponent with
      | none =>
          rw [he] at hc
          cases hc
      | some e =>
          rw [he] at hc
          exact Exponent.ofNumeral_of_mem (h.exponent e he) c hc

end DeskCalculator

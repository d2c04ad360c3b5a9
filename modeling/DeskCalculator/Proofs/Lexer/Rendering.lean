import DeskCalculator.Proofs.Decimal.Reading
import DeskCalculator.Proofs.Lexer.Segments

/-!
# Tokens — Writing tokens out

A token that is not bad has a text: a name and a numeral their own, an operator and a separator their
character (`Word`).  A list of such tokens is written out by putting their texts one behind the other,
with blanks in between wherever one likes, and at least one blank between two tokens of which neither
is an operator or a separator (`Rendered`).

Behind a name or a numeral there is then nothing that goes on with it: the text ends, or a blank, an
operator or a separator follows (`Rendered.endsWord`).  A sign behind a numeral is not taken for that
of an exponent, as the exponent of the numeral, if it has one, has its digits.  So every token is the
lexeme it was written as (`Word.startingWith`), and a lexer gets back what was written, over however
many lines (`Lexer.kinds_of_rendered`).

**Round trip** (`tokenize_rendered`).  The tokens of a text that tokens were written out to are these
tokens again, of the same kinds and in the same order, and nothing is reported.
-/

namespace DeskCalculator

/-- A token that can be written out. -/
inductive Word where
  | name (first : Char) (rest : List Char) (letter : first.isAlpha = true)
      (alphanum : ∀ c ∈ rest, c.isAlphanum = true)
  | numeral (n : Numeral) (written : n.Written)
  | operator (c : Char) (kind : Kind) (is : Kind.ofOperator? c = some kind)
  | separator (c : Char) (separates : Separates c)

namespace Word

def text : Word → List Char
  | .name first rest _ _            => first :: rest
  | .numeral n _                    => n.text
  | .operator c _ _ | .separator c _ => [c]

def kind : Word → Kind
  | .name first rest _ _ => .name (String.ofList (first :: rest))
  | .numeral n _         => .number n.value
  | .operator _ kind _   => kind
  | .separator _ _       => .terminator

/-- Whether the token is an operator or a separator, which needs no blank next to it. -/
def isSymbol : Word → Bool
  | .name .. | .numeral ..       => false
  | .operator .. | .separator .. => true

end Word

/-- `text` is `words` written out, with blanks in between. -/
inductive Rendered : List Word → List Char → Prop where
  | done : Rendered [] []
  | blank {b : Char} {words : List Word} {text : List Char} (hb : isBlank b = true)
      (h : Rendered words text) : Rendered words (b :: text)
  | word {word : Word} {words : List Word} {text : List Char} (h : Rendered words text)
      (apart : word.isSymbol = true ∨ (∀ next ∈ words.head?, next.isSymbol = true) ∨
        ∀ c ∈ text.head?, isBlank c = true) :
      Rendered (word :: words) (word.text ++ text)

/-! ### One token -/

theorem endsWord_of_ofOperator? {c : Char} {k : Kind} (h : Kind.ofOperator? c = some k) :
    EndsWord c := by
  unfold Kind.ofOperator? at h
  split at h <;> first | decide | cases h

namespace Word

/-- A token starts with a character that is no blank; one that is a symbol ends what is before it. -/
theorem exists_head (word : Word) : ∃ c rest, word.text = c :: rest ∧ isBlank c = false ∧
    (word.isSymbol = true → EndsWord c) := by
  cases word with
  | name c rest hc hr =>
      refine ⟨c, rest, rfl, eq_false_of_ne_true fun hb => ?_, nofun⟩
      have hn := not_isAlphanum_of_isBlank hb
      exact absurd (hn.symm.trans (Bool.or_eq_true_iff.mpr (.inl hc))) nofun
  | numeral n hn =>
      obtain ⟨d, hm, -⟩ := hn.exists_digit
      obtain ⟨c, rest, ht⟩ := List.exists_cons_of_ne_nil (List.ne_nil_of_mem hm)
      refine ⟨c, rest, ht, eq_false_of_ne_true fun hb => ?_, nofun⟩
      exact not_ofNumeral_of_isBlank hb
        (Numeral.ofNumeral_of_mem hn c (ht ▸ List.mem_cons_self))
  | operator c kind hk =>
      refine ⟨c, [], rfl, eq_false_of_ne_true fun hb => ?_, fun _ => endsWord_of_ofOperator? hk⟩
      exact absurd ((ofOperator?_of_isBlank hb).symm.trans hk) nofun
  | separator c hs => exact ⟨c, [], rfl, hs.not_blank, fun _ => hs.delimits.endsWord⟩

/-- A token is read as it was written, if nothing goes on with it. -/
theorem startingWith {word : Word} {c : Char} {more rest : List Char} (ht : word.text = c :: more)
    (hr : word.isSymbol = false → ∀ d ∈ rest.head?, EndsWord d) :
    Lexeme.startingWith c (more ++ rest) = ⟨word.kind, c :: more⟩ := by
  cases word with
  | name first letters hc hl =>
      cases ht
      have hn : c.isAlphanum = true := Bool.or_eq_true_iff.mpr (.inl hc)
      have htake : (more ++ rest).takeWhile Char.isAlphanum = more := by
        rw [List.takeWhile_append_of_pos hl]
        cases rest with
        | nil => exact List.append_nil more
        | cons d rest =>
            rw [List.takeWhile_cons_of_neg (ne_true_of_eq_false (hr rfl d rfl).1), List.append_nil]
      rw [Lexeme.startingWith_of_word (not_separates_of_isAlphanum hn)
        (ofOperator?_of_isAlphanum hn), if_neg (not_isDigit_of_isAlpha hc), if_pos hc, htake]
      rfl
  | numeral n hn =>
      have hread := Numeral.read?_text_append hn (hr rfl)
      rw [show n.text = c :: more from ht] at hread
      rw [Lexeme.startingWith_of_digit (hn.head_text ht), ← List.cons_append, hread]
      exact congrArg (Lexeme.mk (.number n.value)) ht
  | operator op kind hk =>
      cases ht
      have hn : ¬(c = '\n' ∨ c = ';') := not_separates_of_ofOperator? hk
      rw [Lexeme.startingWith, if_neg hn, hk]
      rfl
  | separator sep hs =>
      cases ht
      exact hs.startingWith _

end Word

/-! ### A list of tokens -/

namespace Rendered
variable {words : List Word} {text : List Char}

/-- What a text starts with ends the word before it. -/
theorem endsWord (h : Rendered words text)
    (hn : (∀ next ∈ words.head?, next.isSymbol = true) ∨ ∀ c ∈ text.head?, isBlank c = true) :
    ∀ c ∈ text.head?, EndsWord c := by
  rintro c hc
  rcases hn with hn | hn
  · cases h with
    | done => cases hc
    | blank hb =>
        cases hc
        exact (delimits_of_isBlank hb).endsWord
    | @word word words text h =>
        obtain ⟨d, rest, hd, -, he⟩ := word.exists_head
        rw [hd] at hc
        cases hc
        exact he (hn word rfl)
  · exact (delimits_of_isBlank (hn c hc)).endsWord

/-- Behind the blanks the text is at its end, or it goes on with the first token and with what is
written behind that. -/
theorem next (h : Rendered words text) :
    (text.dropWhile isBlank = [] ∧ words = []) ∨
    ∃ word words' c more rest, words = word :: words' ∧
      text.dropWhile isBlank = c :: (more ++ rest) ∧
      Lexeme.startingWith c (more ++ rest) = ⟨word.kind, c :: more⟩ ∧ Rendered words' rest := by
  induction h with
  | done => exact .inl ⟨rfl, rfl⟩
  | blank hb h ih =>
      rw [List.dropWhile_cons_of_pos hb]
      exact ih
  | @word word words text h apart ih =>
      obtain ⟨c, more, ht, hb, -⟩ := word.exists_head
      refine .inr ⟨word, words, c, more, text, rfl, ?_, Word.startingWith ht fun hw => ?_, h⟩
      · rw [ht]
        exact List.dropWhile_cons_of_neg (ne_true_of_eq_false hb)
      · exact h.endsWord (apart.resolve_left (ne_true_of_eq_false hw))

end Rendered

/-- A lexer over tokens that are written out gets them back. -/
theorem Lexer.kinds_of_rendered {words : List Word} {text : List Char} {l : Lexer}
    (h : Rendered words text) (hl : l.Spells text) :
    l.coming.map Token.kind = words.map Word.kind := by
  induction words generalizing l text with
  | nil =>
      rcases h.next with ⟨ht, -⟩ | ⟨_, _, _, _, _, hw, -⟩
      · obtain ⟨l', hf, ha⟩ := fetches_of_blank hl ht (.ofSink .silent)
        rw [coming_of_atEnd hf ha]
        rfl
      · cases hw
  | cons word words ih =>
      rcases h.next with ⟨-, hw⟩ | ⟨_, _, c, more, rest, hw, ht, hx, hr⟩
      · cases hw
      · cases hw
        obtain ⟨l', hf, hs⟩ := fetches_of_cons hl ht (.ofSink .silent)
        rw [hx] at hf hs
        rw [← List.cons_append, List.drop_left] at hs
        rw [coming_of_spells hf hs, List.map_cons, List.map_cons, hf.2, ih hr hs]

namespace Word

/-- No token that is written out is bad. -/
theorem problems_kind (word : Word) : word.kind.problems = [] := by
  cases word with
  | name | numeral | separator => rfl
  | operator c kind hk =>
      unfold Kind.ofOperator? at hk
      split at hk <;> cases hk <;> rfl

/-- A number has the value that its text is read as. -/
theorem parse?_text {word : Word} {value : Float} (h : word.kind = .number value) :
    Double.parse? word.text = some value := by
  cases word with
  | numeral n hn =>
      cases h
      exact Double.parse?_text hn
  | operator c kind hk =>
      obtain rfl : kind = .number value := h
      unfold Kind.ofOperator? at hk
      split at hk <;> cases hk
  | name | separator => cases h

end Word

/-- **Writing tokens out and reading them gives them back.**  Names, numerals, operators and separators
are written out with any blanks in between, and at least one where neither neighbour is an operator or
a separator.  The tokens of that text have the kinds of those that were written, in their order; a
number has the value its own text is read as; and nothing is reported. -/
theorem tokenize_rendered {words : List Word} {text : String} (h : Rendered words text.toList) :
    let tokens := (tokenize text).1
    let journal := (tokenize text).2
    tokens.map Token.kind = words.map Word.kind ∧
      (∀ word ∈ words, ∀ value, word.kind = .number value → Double.parse? word.text = some value) ∧
      journal.problems = [] ∧ journal.errors = 0 ∧ journal.last = none ∧
      journal.sink.captured = "" := by
  intro tokens journal
  have hk : tokens.map Token.kind = words.map Word.kind := by
    have hc := Lexer.kinds_of_rendered h (Lexer.spells_ofInput text)
    rwa [← kinds_eq] at hc
  have hp : (tokens.flatMap fun token => token.kind.problems) = [] := by
    rw [List.flatMap_eq_nil_iff]
    intro token ht
    obtain ⟨word, -, hw⟩ := List.mem_map.mp (hk ▸ List.mem_map_of_mem ht)
    rw [← hw]
    exact word.problems_kind
  have hg : (Journal.ofSink (.buffer "")).Gains
      (tokens.flatMap fun token => token.kind.problems) journal :=
    Lexer.gains_tokens _ _
  rw [hp] at hg
  exact ⟨hk, fun _ _ _ => Word.parse?_text, hg.problems_eq, hg.errors_eq, hg.last_eq,
    congrArg Sink.captured hg.sink_eq⟩

/-- A sign inside an exponent and one behind it, and a name that looks like the mark of an exponent. -/
theorem tokenize_rendered_close :
    let small : Numeral := ⟨[], some ['5'], some ⟨'E', some '-', ['3']⟩⟩
    let two : Numeral := ⟨['2'], some [], none⟩
    ∃ (hs : small.Written) (ht : two.Written),
      let words : List Word :=
        [.numeral small hs, .operator '-' .minus rfl, .name 'e' [] rfl (List.forall_mem_nil _),
          .numeral two ht]
      Rendered words ".5E-3-e 2.".toList ∧
        (tokenize ".5E-3-e 2.").1.map Token.kind =
          [.number small.value, .minus, .name "e", .number two.value] ∧
        Double.parse? ['.', '5', 'E', '-', '3'] = some small.value ∧
        (tokenize ".5E-3-e 2.").2.problems = [] := by
  intro small two
  have hs : small.Written :=
    @Numeral.written_of_read? ['.', '5', 'E', '-', '3'] small (by decide +kernel)
  have ht : two.Written := @Numeral.written_of_read? ['2', '.'] two (by decide +kernel)
  refine ⟨hs, ht, ?_⟩
  intro words
  have h : Rendered words ".5E-3-e 2.".toList := by
    -- from the last token to the first: the name before a blank, the numeral before a symbol
    have htwo : Rendered [.numeral two ht] ['2', '.'] := .word .done (.inr (.inl nofun))
    have hname : Rendered (words.drop 2) ['e', ' ', '2', '.'] :=
      .word (.blank rfl htwo) (.inr (.inr fun c hc => by cases hc; rfl))
    exact .word (.word hname (.inl rfl)) (.inr (.inl fun next hn => by cases hn; rfl))
  obtain ⟨hk, hv, hp, -⟩ := tokenize_rendered h
  exact ⟨h, hk, hv _ List.mem_cons_self _ rfl, hp⟩

end DeskCalculator

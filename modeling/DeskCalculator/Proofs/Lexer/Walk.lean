import DeskCalculator.Proofs.Lexer.Denotation

/-!
# Tokens — Along the lines

Walking along the lines of a text, one comes upon blanks, and upon the texts of the tokens, one after
the other (`Tiles`); what is to come from a lexer are the tokens of such a walk (`tiles_coming`).  The
walk finds each token at a place on a line, behind what is passed of it (`Tiles.placed`), and each
character that is no blank in the text of a token (`Tiles.met`).
-/

namespace DeskCalculator

/-- `tokens` are those of the lines from line `n` on: `before` has been passed on that line, `rest` is
what is left of it, and `lines` are the lines after it. -/
inductive Tiles : Nat → List Char → List Char → List (List Char) → List Token → Prop where
  | done {n : Nat} {before : List Char} : Tiles n before [] [] []
  | line {n : Nat} {before line : List Char} {lines : List (List Char)} {tokens : List Token}
      (h : Tiles (n + 1) [] line lines tokens) : Tiles n before [] (line :: lines) tokens
  | blank {n : Nat} {before : List Char} {c : Char} {rest : List Char} {lines : List (List Char)}
      {tokens : List Token} (hc : isBlank c = true)
      (h : Tiles n (before ++ [c]) rest lines tokens) : Tiles n before (c :: rest) lines tokens
  | token {n : Nat} {before text rest : List Char} {kind : Kind} {lines : List (List Char)}
      {tokens : List Token} (hk : Denotes rest text kind)
      (h : Tiles n (before ++ text) rest lines tokens) :
      Tiles n before (text ++ rest) lines (⟨kind, .at n before text⟩ :: tokens)

theorem Tiles.of_dropWhile {n : Nat} {rest : List Char} {lines : List (List Char)}
    {tokens : List Token} : ∀ {before : List Char},
    Tiles n (before ++ rest.takeWhile isBlank) (rest.dropWhile isBlank) lines tokens →
      Tiles n before rest lines tokens := by
  induction rest with
  | nil =>
      intro before h
      rwa [List.takeWhile_nil, List.dropWhile_nil, List.append_nil] at h
  | cons c rest ih =>
      intro before h
      rw [List.takeWhile_cons, List.dropWhile_cons] at h
      cases hc : isBlank c with
      | true =>
          simp only [hc, if_true] at h
          refine .blank hc (ih ?_)
          rwa [List.append_assoc]
      | false =>
          simp only [hc, Bool.false_eq_true, if_false, List.append_nil] at h
          exact h

/-- A lexeme, and what is left of the line behind it. -/
theorem startingWith_append_drop (c : Char) (rest : List Char) :
    (Lexeme.startingWith c rest).text ++
      (c :: rest).drop (Lexeme.startingWith c rest).text.length = c :: rest :=
  List.prefix_iff_eq_append.mp (Lexeme.startingWith_prefix c rest)

/-- What is to come from a lexer are the tokens of its line and of the lines its reader holds. -/
theorem tiles_coming {l : Lexer} {total n : Nat} {before : List Char} {bytes : List UInt8}
    (h : l.OnLine total n before bytes) :
    Tiles n before l.rest (cutLines '\n' (Utf8.decode bytes)) l.coming := by
  generalize hj : Journal.ofSink .silent = j
  cases hr : l.rest.dropWhile isBlank with
  | cons c rest =>
      -- the line goes on: the lexeme behind the blanks, then what is left of it
      obtain ⟨ho, hc, hl, -⟩ := h.next_token hr j
      have hb : isBlank c = false := head?_dropWhile_eq_false isBlank l.rest c (by rw [hr]; rfl)
      have hx : ¬((l.next j).1.current.kind.isTerminator ∧ (l.next j).1.exhausted) := fun he =>
        absurd (ho.exhausted.symm.trans he.2) nofun
      have hlt := Lexer.rest_next_lt hr j
      have hs := Lexer.unread_next hr j
      have ht := tiles_coming ho
      rw [hl] at ht
      rw [Lexer.coming_cons hx, hc]
      refine .of_dropWhile ?_
      rw [hr, ← startingWith_append_drop c rest]
      exact .token (denotes_startingWith rest hb) ht
  | nil =>
      by_cases hb : bytes = []
      · have he := (h.next_end hr hb j).1
        have hx : (l.next j).1.current.kind.isTerminator ∧ (l.next j).1.exhausted :=
          ⟨by rw [he.kind]; rfl, he.exhausted⟩
        rw [Lexer.coming_nil hx]
        refine .of_dropWhile ?_
        rw [hr, hb]
        exact .done
      · obtain ⟨l', hn, ho, hl, hu⟩ := h.next_line hr hb j
        have hc : l.coming = l'.coming := by
          rw [l.coming_eq j, l'.coming_eq j, Lexer.tokens_congr hn]
        have hf : Utf8.decode (firstLine Chunk.newline bytes) = _ := Utf8.decode_firstLine bytes
        have ha : Utf8.decode (afterLine Chunk.newline bytes) = _ := Utf8.decode_afterLine bytes
        have ht := tiles_coming ho
        rw [hl, hf, ha] at ht
        rw [cutLines_of_ne_nil '\n' (mt Utf8.decode_eq_nil_iff.mp hb), hc]
        refine .of_dropWhile ?_
        rw [hr]
        exact .line ht
termination_by (l.unread, l.rest.length)
decreasing_by
  · exact .left _ _ hu
  · rw [hs]
    exact .right _ hlt

/-! ### The places of the tokens -/

/-- What ends at a place goes on no further behind it. -/
theorem end_ne_append {before u v : List Char} {c : Char} (h : before <+: u) :
    before ++ [] ≠ u ++ c :: v := by
  rw [List.append_nil]
  rintro rfl
  exact absurd h.length_le (by simp)

namespace Tiles
variable {n : Nat} {before rest : List Char} {lines : List (List Char)} {tokens : List Token}
  (h : Tiles n before rest lines tokens)
include h

/-- A token stands on one of the lines, on the first of them behind what is passed. -/
theorem placed : ∀ token ∈ tokens, ∃ i u text v,
    ((before ++ rest) :: lines)[i]? = some (u ++ text ++ v) ∧
    (i = 0 → before <+: u) ∧ token.span = .at (n + i) u text ∧ Denotes v text token.kind := by
  induction h with
  | done => nofun
  | @line n before line lines tokens _ ih =>
      intro token ht
      obtain ⟨i, u, text, v, hi, -, hs, hk⟩ := ih token ht
      refine ⟨i + 1, u, text, v, hi, nofun, ?_, hk⟩
      rwa [← Nat.add_assoc, Nat.add_right_comm]
  | blank _ _ ih =>
      intro token ht
      obtain ⟨i, u, text, v, hi, hu, hs, hk⟩ := ih token ht
      rw [List.append_assoc] at hi
      exact ⟨i, u, text, v, hi, fun h0 => (List.prefix_append _ _).trans (hu h0), hs, hk⟩
  | @token n before text rest kind lines tokens hk _ ih =>
      intro token ht
      rcases List.mem_cons.mp ht with rfl | ht
      · refine ⟨0, before, text, rest, ?_, fun _ => List.prefix_rfl, rfl, hk⟩
        rw [List.append_assoc]
        rfl
      · obtain ⟨i, u, text, v, hi, hu, hs, hk⟩ := ih token ht
        rw [List.append_assoc] at hi
        exact ⟨i, u, text, v, hi, fun h0 => (List.prefix_append _ _).trans (hu h0), hs, hk⟩

/-- Every character that is no blank is part of the text of a token. -/
theorem met {i : Nat} {u v : List Char} {c : Char} (hc : isBlank c = false)
    (hi : ((before ++ rest) :: lines)[i]? = some (u ++ c :: v)) (hu : i = 0 → before <+: u) :
    ∃ token ∈ tokens, ∃ w x y z, u = w ++ x ∧ v = y ++ z ∧
      token.span = .at (n + i) w (x ++ c :: y) ∧ Denotes z (x ++ c :: y) token.kind := by
  induction h generalizing i with
  | @done n before =>
      cases i with
      | zero => exact absurd (Option.some.inj hi) (end_ne_append (hu rfl))
      | succ i => cases hi
  | @line n before line lines tokens _ ih =>
      cases i with
      | zero => exact absurd (Option.some.inj hi) (end_ne_append (hu rfl))
      | succ i =>
          obtain ⟨token, ht, w, x, y, z, hw, hv, hs, hk⟩ := ih hi fun _ => List.nil_prefix
          rw [Nat.add_assoc, Nat.add_comm 1] at hs
          exact ⟨token, ht, w, x, y, z, hw, hv, hs, hk⟩
  | @blank n before d rest lines tokens hd _ ih =>
      refine ih (by rwa [List.append_assoc]) fun h0 => ?_
      obtain ⟨x, rfl⟩ := hu h0
      subst h0
      have hr : d :: rest = x ++ c :: v := by
        have ha := Option.some.inj hi
        rwa [List.append_assoc, List.append_cancel_left_eq] at ha
      -- the character is not the blank, so it stands further on
      cases x with
      | nil =>
          cases (List.cons.inj hr).1
          exact absurd (hc.symm.trans hd) nofun
      | cons e x =>
          cases (List.cons.inj hr).1
          exact ⟨x, List.append_assoc _ _ _⟩
  | @token n before text rest kind lines tokens hk _ ih =>
      have hfurther (hu : i = 0 → before ++ text <+: u) := ih (by rwa [List.append_assoc]) hu
      by_cases h0 : i = 0
      · obtain ⟨x, rfl⟩ := hu h0
        subst h0
        have hr : text ++ rest = x ++ c :: v := by
          have ha := Option.some.inj hi
          rwa [List.append_assoc, List.append_cancel_left_eq] at ha
        -- the character is one of the token's, or it stands behind the token
        rcases List.append_eq_append_iff.mp hr with ⟨z, rfl, -⟩ | ⟨z, rfl, hz⟩
        · obtain ⟨token, ht, hm⟩ := hfurther fun _ => ⟨z, List.append_assoc _ _ _⟩
          exact ⟨token, List.mem_cons_of_mem _ ht, hm⟩
        · cases z with
          | nil =>
              obtain ⟨token, ht, hm⟩ := hfurther fun _ => ⟨[], by simp⟩
              exact ⟨token, List.mem_cons_of_mem _ ht, hm⟩
          | cons e z =>
              cases (List.cons.inj hz).1
              exact ⟨_, List.mem_cons_self, before, x, z, rest, rfl, (List.cons.inj hz).2, rfl, hk⟩
      · obtain ⟨token, ht, hm⟩ := hfurther fun h => absurd h h0
        exact ⟨token, List.mem_cons_of_mem _ ht, hm⟩

end Tiles

end DeskCalculator

import DeskCalculator.Proofs.Lexer.Longest
import DeskCalculator.Proofs.Lexer.Walk

/-!
# Tokens — Layout

A text may be laid out anew: blanks are put in between its tokens, and its newlines and its `;` are
exchanged for one another (`Relaid`).  The tokens that such a layout keeps whole are those that a lexer
gets from the text, and at the places it finds them (`Relaid.tokens_eq`).

What stands behind a token in the new layout is what stood there, or it is that up to a delimiter
(`Relaid.unchanged`).  A lexeme looks no further than the delimiter, and it is the longest one in
either case, so it is the same (`Relaid.startingWith_eq`).  Lexers over two layouts therefore fetch
tokens of the same kinds (`fetches_reads`).
-/

namespace DeskCalculator

instance : DecidablePred Separates := fun _ => inferInstanceAs (Decidable (_ ∨ _))

/-- `new` is a new layout of `text`, which begins on line `n` behind `before` and has these tokens.
Blanks are put in anywhere but inside a token, and a separator may be exchanged for the other one; the
blanks and the other tokens of the text stay. -/
inductive Relaid : Nat → List Char → List Char → List Token → List Char → Prop where
  | done {n : Nat} {before : List Char} : Relaid n before [] [] []
  | insert {n : Nat} {before text new : List Char} {tokens : List Token} {b : Char}
      (hb : isBlank b = true) (h : Relaid n before text tokens new) :
      Relaid n before text tokens (b :: new)
  | blank {n : Nat} {before text new : List Char} {tokens : List Token} {b : Char}
      (hb : isBlank b = true) (h : Relaid n (before ++ [b]) text tokens new) :
      Relaid n before (b :: text) tokens (b :: new)
  | newline {n : Nat} {before text new : List Char} {tokens : List Token} {sep : Char}
      (hs : Separates sep) (h : Relaid (n + 1) [] text tokens new) :
      Relaid n before ('\n' :: text) (⟨.terminator, .at n before ['\n']⟩ :: tokens) (sep :: new)
  | semicolon {n : Nat} {before text new : List Char} {tokens : List Token} {sep : Char}
      (hs : Separates sep) (h : Relaid n (before ++ [';']) text tokens new) :
      Relaid n before (';' :: text) (⟨.terminator, .at n before [';']⟩ :: tokens) (sep :: new)
  | token {n : Nat} {before text new : List Char} {tokens : List Token} (c : Char) (word : List Char)
      (hb : isBlank c = false) (hs : ¬ Separates c)
      (ht : (Lexeme.startingWith c (word ++ text)).text = c :: word)
      (h : Relaid n (before ++ c :: word) text tokens new) :
      Relaid n before (c :: (word ++ text))
        (⟨(Lexeme.startingWith c (word ++ text)).kind, .at n before (c :: word)⟩ :: tokens)
        (c :: (word ++ new))

theorem delimits_of_isBlank {c : Char} (h : isBlank c = true) : Delimits c := by
  rcases eq_of_isBlank h with rfl | rfl | rfl | rfl | rfl <;> decide

namespace Relaid
variable {n : Nat} {before text new : List Char} {tokens : List Token}
  (h : Relaid n before text tokens new)
include h

/-- Up to the first change, which is at a delimiter, a new layout is the old one. -/
theorem unchanged : new = text ∨ ∃ u d v, new = u ++ d :: v ∧ u <+: text ∧ Delimits d := by
  induction h with
  | done => exact .inl rfl
  | insert hb | blank hb => exact .inr ⟨[], _, _, rfl, List.nil_prefix, delimits_of_isBlank hb⟩
  | newline hs | semicolon hs => exact .inr ⟨[], _, _, rfl, List.nil_prefix, hs.delimits⟩
  | @token n before text new tokens c word hb hs ht h ih =>
      rcases ih with rfl | ⟨u, d, v, rfl, hu, hd⟩
      · exact .inl rfl
      · refine .inr ⟨c :: (word ++ u), d, v, by simp, ?_, hd⟩
        exact (List.prefix_cons_inj c).mpr ((List.prefix_append_right_inj word).mpr hu)

/-- A token is read in the new layout as it was in the old one. -/
theorem startingWith_eq {c : Char} {word : List Char}
    (ht : (Lexeme.startingWith c (word ++ text)).text = c :: word) :
    Lexeme.startingWith c (word ++ new) = Lexeme.startingWith c (word ++ text) := by
  rcases h.unchanged with rfl | ⟨u, d, v, rfl, hu, hd⟩
  · rfl
  · rw [← List.append_assoc, Lexeme.startingWith_delimited hd]
    refine Lexeme.startingWith_cut ((List.prefix_append_right_inj word).mpr hu) ?_
    rw [ht]
    exact (List.prefix_cons_inj c).mpr (List.prefix_append _ _)

/-- Both layouts have come to their end, or they go on with a token each, of one kind, and with a
layout of what stands behind it. -/
theorem next :
    (text.dropWhile isBlank = [] ∧ new.dropWhile isBlank = [] ∧ tokens = []) ∨
    ∃ c rest d rest' n' before' tokens',
      let x := Lexeme.startingWith c rest
      let behind := before ++ text.takeWhile isBlank
      text.dropWhile isBlank = c :: rest ∧ new.dropWhile isBlank = d :: rest' ∧
        (Lexeme.startingWith d rest').kind = x.kind ∧
        tokens = ⟨x.kind, .at n behind x.text⟩ :: tokens' ∧
        (c = '\n' → n' = n + 1 ∧ before' = []) ∧ (c ≠ '\n' → n' = n ∧ before' = behind ++ x.text) ∧
        Relaid n' before' ((c :: rest).drop x.text.length) tokens'
          ((d :: rest').drop (Lexeme.startingWith d rest').text.length) := by
  induction h with
  | done => exact .inl ⟨rfl, rfl, rfl⟩
  | insert hb h ih =>
      rw [List.dropWhile_cons_of_pos hb]
      exact ih
  | blank hb h ih =>
      rw [List.dropWhile_cons_of_pos hb, List.dropWhile_cons_of_pos hb,
        List.takeWhile_cons_of_pos hb, List.append_cons]
      exact ih
  | @newline n before text new tokens sep hs h ih =>
      have hb : ¬ isBlank '\n' = true := by decide
      have hx := Separates.startingWith (.inl rfl) text
      refine .inr ⟨'\n', text, sep, new, n + 1, [], tokens, List.dropWhile_cons_of_neg hb,
        List.dropWhile_cons_of_neg (ne_true_of_eq_false hs.not_blank), ?_, ?_, fun _ => ⟨rfl, rfl⟩,
        fun hc => absurd rfl hc, ?_⟩
      · rw [hx, hs.startingWith]
      · rw [hx, List.takeWhile_cons_of_neg hb, List.append_nil]
      · rw [hx, hs.startingWith]
        exact h
  | @semicolon n before text new tokens sep hs h ih =>
      have hb : ¬ isBlank ';' = true := by decide
      have hx := Separates.startingWith (.inr rfl) text
      refine .inr ⟨';', text, sep, new, n, before ++ [';'], tokens, List.dropWhile_cons_of_neg hb,
        List.dropWhile_cons_of_neg (ne_true_of_eq_false hs.not_blank), ?_, ?_, nofun,
        fun _ => ⟨rfl, ?_⟩, ?_⟩
      · rw [hx, hs.startingWith]
      · rw [hx, List.takeWhile_cons_of_neg hb, List.append_nil]
      · rw [hx, List.takeWhile_cons_of_neg hb, List.append_nil]
      · rw [hx, hs.startingWith]
        exact h
  | @token n before text new tokens c word hb hs ht h ih =>
      have hb' : ¬ isBlank c = true := ne_true_of_eq_false hb
      refine .inr ⟨c, word ++ text, c, word ++ new, n, before ++ c :: word, tokens,
        List.dropWhile_cons_of_neg hb', List.dropWhile_cons_of_neg hb', ?_, ?_,
        fun hc => absurd (.inl hc) hs, fun _ => ⟨rfl, ?_⟩, ?_⟩
      · rw [h.startingWith_eq ht]
      · rw [ht, List.takeWhile_cons_of_neg hb', List.append_nil]
      · rw [ht, List.takeWhile_cons_of_neg hb', List.append_nil]
      · rw [h.startingWith_eq ht, ht, ← List.cons_append, ← List.cons_append, List.drop_left,
          List.drop_left]
        exact h

end Relaid

/-- A text has its own layout. -/
theorem exists_relaid (n : Nat) (before text : List Char) :
    ∃ tokens, Relaid n before text tokens text := by
  cases text with
  | nil => exact ⟨[], .done⟩
  | cons c rest =>
      cases hb : isBlank c with
      | true =>
          obtain ⟨tokens, h⟩ := exists_relaid n (before ++ [c]) rest
          exact ⟨tokens, .blank hb h⟩
      | false =>
          by_cases hs : Separates c
          · rcases hs with rfl | rfl
            · obtain ⟨tokens, h⟩ := exists_relaid (n + 1) [] rest
              exact ⟨_, .newline (.inl rfl) h⟩
            · obtain ⟨tokens, h⟩ := exists_relaid n (before ++ [';']) rest
              exact ⟨_, .semicolon (.inr rfl) h⟩
          · -- the rest is what the lexeme takes of it, and what stands behind the lexeme
            obtain ⟨d, word, ht⟩ :=
              List.exists_cons_of_ne_nil (Lexeme.text_startingWith_ne_nil c rest)
            obtain ⟨after, ha⟩ := Lexeme.startingWith_prefix c rest
            rw [ht] at ha
            have hlt : after.length < (c :: rest).length := by
              rw [← ha, List.length_append, List.length_cons]
              omega
            obtain ⟨tokens, h⟩ := exists_relaid n (before ++ d :: word) after
            obtain ⟨rfl, rfl⟩ := List.cons.inj ha
            exact ⟨_, .token d word hb hs ht h⟩
termination_by text.length
decreasing_by
  · exact Nat.lt_succ_self _
  · exact Nat.lt_succ_self _
  · exact hlt
  · exact Nat.lt_succ_self _

/-! ### The tokens of a layout -/

section Lines
variable {u v : List Char} {c : Char}

theorem eq_nil_of_not_mem_dropLast (h : c ∉ (u ++ c :: v).dropLast) : v = [] := by
  rcases List.eq_nil_or_concat v with rfl | ⟨w, d, rfl⟩
  · rfl
  · refine absurd ?_ h
    rw [List.concat_eq_append, ← List.cons_append, ← List.append_assoc, List.dropLast_concat]
    exact List.mem_append_right u List.mem_cons_self

theorem not_mem_dropLast_of_suffix (h : c ∉ u.dropLast) (hs : v <:+ u) : c ∉ v.dropLast := by
  obtain ⟨w, rfl⟩ := hs
  by_cases hv : v = []
  · rw [hv]
    exact List.not_mem_nil
  · rw [List.dropLast_append_of_ne_nil hv] at h
    exact fun hm => h (List.mem_append_right w hm)

theorem Ended.mem (h : Ended u) (hu : u ≠ []) : '\n' ∈ u := by
  have hl := h _ (List.getLast?_eq_some_getLast hu)
  exact hl ▸ List.getLast_mem hu

/-- A line that ends with a newline is not blank. -/
theorem Ended.eq_nil_of_blank (h : Ended u) (hb : u.dropWhile isBlank = []) : u = [] := by
  by_contra hu
  exact absurd (List.dropWhile_eq_nil_iff.mp hb '\n' (h.mem hu)) (by decide)

theorem front_append (h : u.dropWhile isBlank = c :: v) (later : List Char) :
    (u ++ later).dropWhile isBlank = c :: (v ++ later) ∧
      (u ++ later).takeWhile isBlank = u.takeWhile isBlank := by
  have hc : isBlank c = false := head?_dropWhile_eq_false isBlank u c (by rw [h]; rfl)
  have ht := List.takeWhile_append_dropWhile (p := isBlank) (l := u)
  rw [h] at ht
  constructor
  · rw [List.dropWhile_append, h]
    rfl
  · rw [← ht, List.append_assoc, List.cons_append, takeWhile_delimited hc, takeWhile_delimited hc]

end Lines

theorem not_mem_dropLast_firstLine {text : List Char} (h : text ≠ []) :
    '\n' ∉ (firstLine '\n' text).dropLast := by
  refine not_mem_dropLast_cutLines '\n' (l := text) ?_
  rw [cutLines_of_ne_nil '\n' h]
  exact List.mem_cons_self

namespace Lexer

/-- The lexer stands on line `n` behind `before`, and what it has to come goes on behind `u` on line
`m`: at the same place, or on the next line, if it is at the end of its own.  Its line ends with a
newline, which is the only one on it, or is the last one. -/
structure GoesOn (l : Lexer) (total n : Nat) (before : List Char) (bytes : List UInt8) (m : Nat)
    (u : List Char) : Prop where
  onLine : l.OnLine total n before bytes
  ended : bytes ≠ [] → Ended l.rest
  whole : '\n' ∉ l.rest.dropLast
  here : l.rest ≠ [] → m = n ∧ u = before
  below : l.rest = [] → bytes ≠ [] → m = n + 1 ∧ u = []

namespace GoesOn
variable {l : Lexer} {total n m : Nat} {before u : List Char} {bytes : List UInt8}

/-- At the start of a line. -/
theorem of_line (hb : bytes ≠ [])
    (h : l.OnLine total n [] (afterLine Chunk.newline bytes))
    (hl : l.rest = firstLine '\n' (Utf8.decode bytes)) :
    l.GoesOn total n [] (afterLine Chunk.newline bytes) n [] where
  onLine := h
  ended ha := by
    rw [hl]
    refine ended_firstLine ?_
    rw [← Utf8.decode_afterLine]
    exact mt Utf8.decode_eq_nil_iff.mp ha
  whole := by
    rw [hl]
    exact not_mem_dropLast_firstLine (mt Utf8.decode_eq_nil_iff.mp hb)
  here _ := ⟨rfl, rfl⟩
  below h0 := by
    rw [hl, firstLine_eq_nil_iff, Utf8.decode_eq_nil_iff] at h0
    exact absurd h0 hb

/-- Behind a token. -/
theorem next (h : l.GoesOn total n before bytes m u) {c : Char} {rest : List Char}
    (hd : l.rest.dropWhile isBlank = c :: rest) (j : Journal) {n' : Nat} {before' : List Char}
    (hn : c = '\n' → n' = n + 1 ∧ before' = [])
    (hn' : c ≠ '\n' → n' = n ∧
      before' = before ++ l.rest.takeWhile isBlank ++ (Lexeme.startingWith c rest).text) :
    (l.next j).1.GoesOn total n
      (before ++ l.rest.takeWhile isBlank ++ (Lexeme.startingWith c rest).text) bytes n'
      before' := by
  obtain ⟨ho, -, hl, -⟩ := h.onLine.next_token hd j
  have hs : c :: rest <:+ l.rest := hd ▸ List.dropWhile_suffix isBlank
  have hb : isBlank c = false := head?_dropWhile_eq_false isBlank l.rest c (by rw [hd]; rfl)
  have ha := startingWith_append_drop c rest
  have hw := not_mem_dropLast_of_suffix h.whole hs
  refine ⟨ho, fun hb => ?_, ?_, fun h0 => hn' ?_, fun h0 hb' => hn ?_⟩
  · rw [hl]
    exact (h.ended hb).of_suffix ((List.drop_suffix _ _).trans hs)
  · rw [hl]
    exact not_mem_dropLast_of_suffix hw (List.drop_suffix _ _)
  · -- a newline is the last character of the line
    rintro rfl
    rw [hl, Separates.startingWith (.inl rfl), eq_nil_of_not_mem_dropLast (u := []) hw] at h0
    exact h0 rfl
  · -- the token has the newline at the end of the line, so it is that newline
    rw [hl] at h0
    rw [h0, List.append_nil] at ha
    have hm : '\n' ∈ (Lexeme.startingWith c rest).text := by
      rw [ha]
      exact ((h.ended hb').of_suffix hs).mem nofun
    have ht := ((denotes_startingWith rest hb).eq_of_separates hm (.inl rfl)).1
    rw [ha] at ht
    exact (List.cons.inj ht).1

end GoesOn

end Lexer

/-- The tokens of a layout are those to come from a lexer that has the text to come. -/
theorem Relaid.tokens_eq {l : Lexer} {total n m : Nat} {before u new : List Char}
    {bytes : List UInt8} {tokens : List Token} (h : l.GoesOn total n before bytes m u)
    (hr : Relaid m u (l.rest ++ Utf8.decode bytes) tokens new) : tokens = l.coming := by
  generalize hj : Journal.ofSink .silent = j
  cases hd : l.rest.dropWhile isBlank with
  | cons c rest =>
      obtain ⟨rfl, rfl⟩ := h.here fun h0 => by
        rw [h0] at hd
        cases hd
      obtain ⟨ho, hc, hl, -⟩ := h.onLine.next_token hd j
      have hx : ¬((l.next j).1.current.kind.isTerminator ∧ (l.next j).1.exhausted) := fun he =>
        absurd (ho.exhausted.symm.trans he.2) nofun
      have hlt := Lexer.rest_next_lt hd j
      have hs := Lexer.unread_next hd j
      obtain ⟨hd', hw⟩ := front_append hd (Utf8.decode bytes)
      have hx' : Lexeme.startingWith c (rest ++ Utf8.decode bytes) = Lexeme.startingWith c rest := by
        by_cases hb : bytes = []
        · rw [hb, Utf8.decode_eq_nil_iff.mpr rfl, List.append_nil]
        · exact Lexeme.startingWith_ended
            ((h.ended hb).of_suffix (hd ▸ List.dropWhile_suffix isBlank)) _
      rcases hr.next with ⟨he, -⟩ |
        ⟨c', rest', d, rest'', n', before', tokens', he, -, -, ht, hn, hn', hr'⟩
      · rw [hd'] at he
        cases he
      · cases hd'.symm.trans he
        rw [hx', hw] at ht hn'
        rw [hx', ← List.cons_append, List.drop_append_of_le_length (length_startingWith_le c rest),
          ← hl] at hr'
        rw [Lexer.coming_cons hx, hc, ht, tokens_eq (h.next hd j hn hn') hr']
  | nil =>
      by_cases hb : bytes = []
      · have he := (h.onLine.next_end hd hb j).1
        have hx : (l.next j).1.current.kind.isTerminator ∧ (l.next j).1.exhausted :=
          ⟨by rw [he.kind]; rfl, he.exhausted⟩
        rw [Lexer.coming_nil hx]
        rw [hb, Utf8.decode_eq_nil_iff.mpr rfl, List.append_nil] at hr
        rcases hr.next with ⟨-, -, ht⟩ | ⟨c, rest, d, rest', n', before', tokens', hd', -⟩
        · exact ht
        · rw [hd] at hd'
          cases hd'
      · obtain ⟨l', hf, ho, hl', hu⟩ := h.onLine.next_line hd hb j
        have hc : l.coming = l'.coming := by
          rw [l.coming_eq j, l'.coming_eq j, Lexer.tokens_congr hf]
        have hn := (h.ended hb).eq_nil_of_blank hd
        obtain ⟨rfl, rfl⟩ := h.below hn hb
        have hl : l'.rest = firstLine '\n' (Utf8.decode bytes) :=
          hl'.trans (Utf8.decode_firstLine bytes)
        have hr' : Relaid (n + 1) [] (l'.rest ++ Utf8.decode (afterLine Chunk.newline bytes)) tokens
            new := by
          rw [hn, List.nil_append] at hr
          rwa [hl, show Utf8.decode (afterLine Chunk.newline bytes) = _ from
            Utf8.decode_afterLine bytes, firstLine_append_afterLine]
        rw [hc]
        exact tokens_eq (.of_line hb ho hl) hr'
termination_by (l.unread, l.rest.length)
decreasing_by
  · exact .left _ _ hu
  · rw [hs]
    exact .right _ hlt

namespace Lexer

/-! ### Two layouts side by side -/

/-- The second lexer has a new layout of what the first one has to come, or both have found the end of
their inputs. -/
def Reads (l m : Lexer) : Prop :=
  (∃ n before text tokens new, Relaid n before text tokens new ∧ l.Spells text ∧ m.Spells new) ∨
    (l.AtEnd ∧ m.AtEnd)

theorem fetches_reads {l m : Lexer} (h : Reads l m) : FetchAlike Reads l m := by
  intro j k
  obtain ⟨n, before, text, tokens, new, hr, hl, hm⟩ | ⟨hl, hm⟩ := h
  · rcases hr.next with ⟨ht, ht', -⟩ |
      ⟨c, rest, d, rest', n', before', tokens', ht, ht', hk, -, -, -, hr'⟩
    · obtain ⟨l', hl', ha⟩ := fetches_of_blank hl ht j
      obtain ⟨m', hm', ha'⟩ := fetches_of_blank hm ht' k
      exact ⟨_, l', m', hl', hm', .inr ⟨ha, ha'⟩⟩
    · obtain ⟨l', hl', hs⟩ := fetches_of_cons hl ht j
      obtain ⟨m', hm', hs'⟩ := fetches_of_cons hm ht' k
      exact ⟨_, l', m', hl', hk ▸ hm', .inl ⟨_, _, _, _, _, hr', hs, hs'⟩⟩
  · obtain ⟨l', hl', ha⟩ := fetches_of_atEnd hl j
    obtain ⟨m', hm', ha'⟩ := fetches_of_atEnd hm k
    exact ⟨_, l', m', hl', hm', .inr ⟨ha, ha'⟩⟩

theorem Reads.exhausted_eq {l m : Lexer} : Reads l m → m.exhausted = l.exhausted
  | .inl ⟨_, _, _, _, _, _, hl, hm⟩ => hm.1.trans hl.1.symm
  | .inr ⟨hl, hm⟩ => hm.1.trans hl.1.symm

/-- Lexers that fetch alike have tokens of the same kinds to come. -/
theorem map_kind_coming {P : Lexer → Lexer → Prop} (hP : ∀ {l m}, P l m → FetchAlike P l m)
    (hx : ∀ {l m}, P l m → m.exhausted = l.exhausted) {l m : Lexer} (h : P l m) :
    m.coming.map Token.kind = l.coming.map Token.kind := by
  generalize hj : Journal.ofSink .silent = j
  clear hj
  induction l, j using tokens.induct generalizing m with
  | case1 l j l' j' hn he =>
      obtain ⟨kind, l₁, m₁, ⟨hl, hk⟩, ⟨hm, hk'⟩, hp⟩ := hP h j j
      cases (Prod.mk.inj (hn.symm.trans hl)).1
      have hc : l.coming = [] := coming_nil (j := j) (by rw [hn]; exact he)
      have hc' : m.coming = [] := coming_nil (j := j) (by rw [hm, hx hp, hk', ← hk]; exact he)
      rw [hc, hc']
  | case2 l j l' j' hn he tokens j'' ht ih =>
      obtain ⟨kind, l₁, m₁, ⟨hl, hk⟩, ⟨hm, hk'⟩, hp⟩ := hP h j j
      cases (Prod.mk.inj (hn.symm.trans hl)).1
      have hc := coming_cons (l := l) (j := j) (by rw [hn]; exact he)
      have hc' := coming_cons (l := m) (j := j) (by rw [hm, hx hp, hk', ← hk]; exact he)
      rw [hn] at hc
      rw [hm] at hc'
      rw [hc, hc', List.map_cons, List.map_cons, hk, hk', ih hp]

end Lexer

end DeskCalculator

import DeskCalculator.Proofs.Lexer.Walk

/-!
# Tokens — What a lexer has read

A reader may come to an end and deliver more behind it, or fail, and nothing is known of what it will do
next.  But what it has done is known: the lexer has read some lines from it, one after the other
(`Reader.Reads`), it stands on the last of them, and the tokens fetched so far are those of these lines
up to this place (`Walked`).  Every fetch goes further on the way, or asks for a line and gets none;
then the whole lines have been walked, and the lexer rests (`Walked.next`).

There it stays: every fetch gives the terminator it has already, whatever the reader would deliver
(`fetchAll_of_rests`).
-/

namespace DeskCalculator

/-- Reading line after line from `r` gives `lines` and leaves another reader. -/
inductive Reader.Reads (r : Reader) : List (List UInt8) → Reader → Prop where
  | start : Reads r [] r
  | line {lines : List (List UInt8)} {bytes : List UInt8} {r' r'' : Reader} (h : Reads r lines r')
      (hr : r'.readLine = (.line bytes, r'')) : Reads r (lines ++ [bytes]) r''

namespace Lexer

/-- The tokens of some fetches, each noted in a journal of its own, and the lexer behind them. -/
def fetchAll (l : Lexer) : List Journal → List Token × Lexer
  | []            => ([], l)
  | j :: journals =>
      match (l.next j).1.fetchAll journals with
      | (tokens, l') => ((l.next j).1.current :: tokens, l')

/-- The lexer has read `lines`, stands on the last of them behind `before`, and has fetched `tokens` on
its way there: whatever tokens are to come from here, all of them together are those of all lines. -/
structure Walked (start : Reader) (lines : List (List UInt8)) (before : List Char)
    (tokens : List Token) (l : Lexer) : Prop where
  exhausted : l.exhausted = false
  stands : l.Stands lines.length before
  reads : start.Reads lines l.input.reader
  tiles {later : List (List Char)} {more : List Token}
    (h : Tiles lines.length before l.rest later more) :
    Tiles 0 [] [] (lines.map Utf8.decode ++ later) (tokens ++ more)

/-- The lexer has read `lines` and then asked for a line and got none, and `tokens` are those of the
lines.  It is exhausted. -/
structure WalkedThrough (start : Reader) (lines : List (List UInt8)) (tokens : List Token) (l : Lexer) :
    Prop where
  rests : l.Rests
  number : l.lineNumber = UInt32.ofNat lines.length
  reads : ∃ r, start.Reads lines r ∧ (∀ bytes, r.readLine.1 ≠ .line bytes) ∧
    l.input.reader = r.readLine.2
  tiles : Tiles 0 [] [] (lines.map Utf8.decode) tokens

/-- The terminator at the end says how many lines there were. -/
theorem WalkedThrough.current {start : Reader} {lines : List (List UInt8)} {tokens : List Token}
    {l : Lexer} (h : l.WalkedThrough start lines tokens) :
    l.current = ⟨.terminator, UInt32.ofNat lines.length, 0, 0⟩ := by
  rw [h.rests.current, token, h.rests.offset, h.number]
  rfl

theorem walked_setInput (l : Lexer) (input : Input) :
    (l.setInput input).Walked input.reader [] [] [] where
  exhausted := rfl
  stands := ⟨rfl, rfl, rfl⟩
  reads := .start
  tiles h := h

namespace Walked
variable {start : Reader} {lines : List (List UInt8)} {before : List Char} {tokens : List Token}
  {l : Lexer} (h : l.Walked start lines before tokens)
include h

/-- Further along the line. -/
theorem token {c : Char} {rest : List Char} (hr : l.rest.dropWhile isBlank = c :: rest)
    (j : Journal) :
    (l.next j).1.Walked start lines
      (before ++ l.rest.takeWhile isBlank ++ (Lexeme.startingWith c rest).text)
      (tokens ++ [(l.next j).1.current]) := by
  obtain ⟨hs, hc, hl, hi, hx⟩ := h.stands.next_token hr j
  have hb : isBlank c = false := head?_dropWhile_eq_false isBlank l.rest c (by rw [hr]; rfl)
  refine ⟨hx.trans h.exhausted, hs, hi ▸ h.reads, fun ht => ?_⟩
  rw [List.append_assoc]
  refine h.tiles (.of_dropWhile ?_)
  rw [hl] at ht
  rw [hr, ← startingWith_append_drop c rest, hc]
  exact .token (denotes_startingWith rest hb) ht

section
variable (hr : l.rest.dropWhile isBlank = [])
include hr

/-- On to the line that was read. -/
theorem line {bytes : List UInt8} {r : Reader} (hl : l.input.reader.readLine = (.line bytes, r)) :
    (l.skipBlanks.atLine r (Utf8.decode bytes)).Walked start (lines ++ [bytes]) [] tokens where
  exhausted := h.exhausted
  stands := by
    rw [List.length_append]
    exact h.stands.skipBlanks.atLine r _
  reads := h.reads.line hl
  tiles ht := by
    rw [List.length_append] at ht
    rw [List.map_append, List.append_assoc]
    refine h.tiles (.of_dropWhile ?_)
    rw [hr]
    exact .line ht

/-- No line is read, so this is the end. -/
theorem through {read : LineRead} {r : Reader} (hl : l.input.reader.readLine = (read, r))
    (hn : ∀ bytes, read ≠ .line bytes) :
    ((l.skipBlanks.exhaust r).take .terminator []).WalkedThrough start lines tokens where
  rests := ⟨rfl, rfl, rfl, rfl⟩
  number := h.stands.number
  reads := ⟨_, h.reads, by rwa [hl], by rw [hl]; rfl⟩
  tiles := by
    have ht : Tiles lines.length before l.rest [] [] := .of_dropWhile (by rw [hr]; exact .done)
    have ha := h.tiles ht
    rwa [List.append_nil, List.append_nil] at ha

/-- A read gives the next line, or there is none. -/
theorem refill (j : Journal) :
    (∃ lines', (l.skipBlanks.refill j).1.Walked start lines' [] tokens) ∨
      ∃ r, (l.skipBlanks.refill j).1 = l.skipBlanks.exhaust r ∧
        ((l.skipBlanks.exhaust r).take .terminator []).WalkedThrough start lines tokens := by
  rw [Lexer.refill, show l.skipBlanks.input.reader.readLine = l.input.reader.readLine from rfl]
  cases hl : l.input.reader.readLine with
  | mk read r =>
      cases read with
      | line bytes => exact .inl ⟨_, h.line hr hl⟩
      | endOfInput | failed message => exact .inr ⟨r, rfl, h.through hr hl fun _ hn => by cases hn⟩

end

end Walked

/-- **A fetch goes further on the way, or finds its end.** -/
theorem Walked.next {start : Reader} {lines : List (List UInt8)} {before : List Char}
    {tokens : List Token} {l : Lexer} (h : l.Walked start lines before tokens) (j : Journal) :
    (∃ lines' before', (l.next j).1.Walked start lines' before' (tokens ++ [(l.next j).1.current])) ∨
      ∃ lines', (l.next j).1.WalkedThrough start lines' tokens := by
  induction l, j using seek.induct generalizing lines before with
  | case1 l j hc ih =>
      have hr := List.isEmpty_iff.mp hc.1
      rw [next_further hr h.exhausted]
      rcases h.refill hr j with ⟨lines', hw⟩ | ⟨r, hk, ho⟩
      · exact ih hw
      · rw [hk, next_exhaust]
        exact .inr ⟨lines, ho⟩
  | case2 l j hc =>
      obtain ⟨c, rest, hr⟩ := List.exists_cons_of_ne_nil fun hn =>
        hc ⟨List.isEmpty_iff.mpr hn, h.exhausted⟩
      exact .inl ⟨_, _, h.token hr j⟩

/-! ### Any number of fetches -/

theorem fetchAll_append (l : Lexer) (journals more : List Journal) :
    l.fetchAll (journals ++ more) =
      ((l.fetchAll journals).1 ++ ((l.fetchAll journals).2.fetchAll more).1,
        ((l.fetchAll journals).2.fetchAll more).2) := by
  induction journals generalizing l with
  | nil => rfl
  | cons j journals ih =>
      rw [List.cons_append, fetchAll, ih]
      rfl

/-- At the end of its input a lexer stays, whatever its reader would deliver. -/
theorem fetchAll_of_rests {l : Lexer} (h : l.Rests) (journals : List Journal) :
    l.fetchAll journals = (List.replicate journals.length l.current, l) := by
  induction journals with
  | nil => rfl
  | cons j journals ih =>
      simp only [fetchAll, next_of_rests h j, ih]
      rfl

/-- Any number of fetches go on along the lines, or come to the end and stay there. -/
theorem Walked.fetchAll {start : Reader} {lines : List (List UInt8)} {before : List Char}
    {tokens : List Token} {l : Lexer} (h : l.Walked start lines before tokens)
    (journals : List Journal) :
    (∃ lines' before',
      (l.fetchAll journals).2.Walked start lines' before' (tokens ++ (l.fetchAll journals).1)) ∨
    ∃ lines' fetched k, (l.fetchAll journals).2.WalkedThrough start lines' (tokens ++ fetched) ∧
      (l.fetchAll journals).1 = fetched ++ List.replicate k (l.fetchAll journals).2.current := by
  induction journals generalizing lines before tokens l with
  | nil => exact .inl ⟨lines, before, by rw [Lexer.fetchAll, List.append_nil]; exact h⟩
  | cons j journals ih =>
      rcases h.next j with ⟨lines', before', hw⟩ | ⟨lines', ho⟩
      · rcases ih hw with ⟨lines', before', hk⟩ | ⟨lines', fetched, k, hk, hf⟩
        · rw [List.append_assoc] at hk
          exact .inl ⟨lines', before', hk⟩
        · rw [List.append_assoc] at hk
          exact .inr ⟨lines', _, k, hk, congrArg ((l.next j).1.current :: ·) hf⟩
      · refine .inr ⟨lines', [], journals.length + 1, ?_⟩
        rw [Lexer.fetchAll, fetchAll_of_rests ho.rests, List.append_nil]
        exact ⟨ho, rfl⟩

/-- The fetch that finds the end finds it behind all lines that were read. -/
theorem exists_walkedThrough {l : Lexer} {input : Input} {journals : List Journal} {j : Journal}
    (hx : ((l.setInput input).fetchAll journals).2.exhausted = false)
    (hn : (((l.setInput input).fetchAll journals).2.next j).1.exhausted = true) :
    ∃ lines, (((l.setInput input).fetchAll journals).2.next j).1.WalkedThrough input.reader lines
      ((l.setInput input).fetchAll journals).1 := by
  rcases (walked_setInput l input).fetchAll journals with ⟨lines, before, hw⟩ | ⟨_, _, _, ho, _⟩
  · rcases hw.next j with ⟨lines', before', hw'⟩ | ho
    · exact absurd (hw'.exhausted.symm.trans hn) nofun
    · exact ho
  · exact absurd (hx.symm.trans ho.rests.exhausted) nofun

/-- The lexer has been given a new input, and has been fetching since. -/
def Fetching (l : Lexer) : Prop :=
  ∃ (old : Lexer) (input : Input) (journals : List Journal),
    l = ((old.setInput input).fetchAll journals).2

theorem Fetching.next {l : Lexer} (h : l.Fetching) (j : Journal) : (l.next j).1.Fetching := by
  obtain ⟨old, input, journals, rfl⟩ := h
  refine ⟨old, input, journals ++ [j], ?_⟩
  rw [fetchAll_append]
  rfl

theorem Fetching.wellFormed {l : Lexer} (h : l.Fetching) : l.WellFormed := by
  obtain ⟨old, input, journals, rfl⟩ := h
  rcases (walked_setInput old input).fetchAll journals with ⟨lines, before, hw⟩ | ⟨_, _, _, ho, _⟩
  · exact fun hx => absurd (hw.exhausted.symm.trans hx) nofun
  · exact ho.rests.wellFormed

end Lexer

end DeskCalculator

import DeskCalculator.Lexer.Scanner
import DeskCalculator.Proofs.Lexer.Cursor

/-!
# Tokens — Where a lexer scans

The scanner that stands at the place of a lexer passes every check of the next fetch, and does the same
as the lexer (`get?_scanner`).

**No check fails** (`scan_positions_valid`).  Whatever inputs a lexer is given and however often it has
fetched, it stands at a place of its line, between two characters or at an end, and its scanner has come
there with it.
-/

namespace DeskCalculator
open Lexeme (byteLength)

namespace Scanner

/-! ### From one character to the next -/

theorem front?_eq (s : Scanner) (j : Journal) :
    s.front? j =
      match s.bump? j with
      | some (some c, s', j') => if isBlank c then s'.front? j' else some (some c, s', j')
      | some (none, s', j')   => some (none, s', j')
      | none                  => none := by
  rw [front?]
  split <;> rename_i h <;> rw [h]

section
variable {s s' : Scanner} {j j' : Journal}

theorem front?_congr (h : s.bump? j = s'.bump? j') : s.front? j = s'.front? j' := by
  rw [front?_eq, h, ← front?_eq]

theorem front?_end (h : s.bump? j = some (none, s', j')) : s.front? j = some (none, s', j') := by
  rw [front?_eq, h]

end

/-- The scanner at a place. -/
def behind (s : Scanner) (before rest : List Char) : Scanner :=
  { s with cursor := .behind before rest }

section
variable (s : Scanner) (j : Journal) (before rest : List Char)

theorem take?_behind (c : Char) :
    (s.behind before (c :: rest)).take? j = some (some c, s.behind (before ++ [c]) rest, j) := by
  rw [take?, show (s.behind before (c :: rest)).cursor = .behind before (c :: rest) from rfl,
    Cursor.take?_behind]
  rfl

theorem bump?_behind (c : Char) :
    (s.behind before (c :: rest)).bump? j = some (some c, s.behind (before ++ [c]) rest, j) := by
  have hlt : ¬ byteLength (before ++ c :: rest) ≤ byteLength before := by
    have hc : 0 < byteLength (c :: rest) := Lexeme.byteLength_pos (List.cons_ne_nil c rest)
    rw [Lexeme.byteLength_append]
    omega
  exact (if_neg hlt).trans (s.take?_behind j before rest c)

/-- Where the line is scanned, a line is asked for. -/
theorem bump?_behind_nil : (s.behind before []).bump? j =
    match (s.behind before []).refill j with
    | (true, s, j)  => s.take? j
    | (false, s, j) => some (none, s, j) :=
  if_pos (show byteLength (before ++ []) ≤ byteLength before by rw [List.append_nil])

theorem front?_skip : (s.behind before rest).front? j =
    (s.behind (before ++ rest.takeWhile isBlank) (rest.dropWhile isBlank)).front? j := by
  induction rest generalizing before with
  | nil => rw [List.takeWhile_nil, List.dropWhile_nil, List.append_nil]
  | cons c rest ih =>
      rw [List.takeWhile_cons, List.dropWhile_cons]
      cases hc : isBlank c with
      | true =>
          rw [front?_eq, bump?_behind]
          simp only [hc, if_true]
          rw [ih, List.append_assoc]
          rfl
      | false =>
          simp only [Bool.false_eq_true, if_false]
          rw [List.append_nil]

/-- Where the line goes on with a character that is no blank, this is the front. -/
theorem front?_behind {c : Char} (hc : isBlank c = false) :
    (s.behind before (c :: rest)).front? j = some (some c, s.behind (before ++ [c]) rest, j) := by
  rw [front?_eq, bump?_behind]
  simp only [hc, Bool.false_eq_true, if_false]

/-- At the end of its input a scanner stays. -/
theorem front?_exhausted (h : s.exhausted = true) :
    (s.behind before []).front? j = some (none, s.behind before [], j) := by
  refine front?_end ?_
  rw [bump?_behind_nil, refill]
  have hx : (s.behind before []).exhausted = true := h
  rw [hx]
  rfl

end

end Scanner

/-! ### The scanner of a lexer -/

namespace Lexer

/-- A line that is read has a character. -/
theorem rest_refill_ne_nil {l : Lexer} {j : Journal} (h : (l.refill j).1.exhausted = false) :
    (l.refill j).1.rest ≠ [] := by
  unfold refill at h ⊢
  split at h
  · rename_i bytes reader hr
    exact mt Utf8.decode_eq_nil_iff.mp (Reader.size_readLine (congrArg Prod.fst hr)).1
  · cases h
  · cases h

theorem scanner_refill {l : Lexer} (h : l.exhausted = false) (j : Journal) :
    l.scanner.refill j = (!(l.refill j).1.exhausted, (l.refill j).1.scanner, (l.refill j).2) := by
  have hx : ¬ l.scanner.exhausted = true := ne_true_of_eq_false h
  rw [Scanner.refill, if_neg hx, refill, show l.scanner.input = l.input from rfl]
  generalize l.input.reader.readLine = r
  obtain ⟨read, reader⟩ := r
  cases read with
  | line bytes => exact Prod.ext (congrArg not h).symm rfl
  | endOfInput | failed message => rfl

namespace Stands
variable {l : Lexer} {n : Nat} {before : List Char} (h : l.Stands n before)
include h

theorem scanner_eq : l.scanner = l.scanner.behind before l.rest := by
  rw [scanner, h.line, h.offset]
  rfl

/-- Blanks are passed in front of a token. -/
theorem front?_skipBlanks (j : Journal) : l.scanner.front? j = l.skipBlanks.scanner.front? j := by
  rw [h.scanner_eq, Scanner.front?_skip, h.skipBlanks.scanner_eq]
  rfl

/-- A lexer that reads stands at the start of a line, or at the end of its input. -/
theorem refill (j : Journal) : ∃ n', (l.refill j).1.Stands n' [] := by
  unfold Lexer.refill
  split
  · exact ⟨n + 1, h.atLine _ _⟩
  · exact ⟨n, h.number, rfl, rfl⟩
  · exact ⟨n, h.number, rfl, rfl⟩

/-- Where the line is scanned, both ask for a line. -/
theorem front?_refill (hr : l.rest = []) (hx : l.exhausted = false) (j : Journal) :
    l.scanner.front? j = (l.refill j).1.scanner.front? (l.refill j).2 := by
  obtain ⟨n', hs⟩ := h.refill j
  have hb := l.scanner.bump?_behind_nil j before
  rw [← hr, ← h.scanner_eq, scanner_refill hx] at hb
  cases he : (l.refill j).1.exhausted with
  | false =>
      obtain ⟨c, rest, hc⟩ := List.exists_cons_of_ne_nil (rest_refill_ne_nil he)
      refine Scanner.front?_congr (hb.trans ?_)
      rw [he, hs.scanner_eq, hc, Scanner.bump?_behind]
      exact Scanner.take?_behind ..
  | true =>
      have hn : (l.refill j).1.rest = [] := (wellFormed_refill hx j he).1
      rw [he] at hb
      rw [Scanner.front?_end hb, hs.scanner_eq, hn]
      exact (Scanner.front?_exhausted _ _ _ he).symm

end Stands

/-- The scanner finds what the lexer seeks: it takes the character there, or finds the end. -/
theorem front?_scanner {l : Lexer} {n : Nat} {before : List Char} (h : l.Stands n before)
    (j : Journal) : ∃ n' before', (l.seek j).1.Stands n' before' ∧
      l.scanner.front? j =
        match (l.seek j).1.rest with
        | []        => some (none, (l.seek j).1.scanner, (l.seek j).2)
        | c :: rest => some (some c, (l.seek j).1.scanner.behind (before' ++ [c]) rest, (l.seek j).2) := by
  induction l, j using seek.induct generalizing n before with
  | case1 l j hc ih =>
      obtain ⟨n', hs⟩ := h.skipBlanks.refill j
      obtain ⟨n'', before', hk, hf⟩ := ih hs
      rw [seek_further j hc, h.front?_skipBlanks,
        h.skipBlanks.front?_refill (List.isEmpty_iff.mp hc.1) hc.2]
      exact ⟨n'', before', hk, hf⟩
  | case2 l j hc =>
      have hs := h.skipBlanks
      refine ⟨n, _, by rw [seek_here j hc]; exact hs, ?_⟩
      rw [seek_here j hc, h.front?_skipBlanks, hs.scanner_eq]
      cases hr : l.skipBlanks.rest with
      | nil =>
          have hx : l.exhausted = true := eq_true_of_ne_false fun hx =>
            hc ⟨List.isEmpty_iff.mpr hr, hx⟩
          exact Scanner.front?_exhausted _ _ _ hx
      | cons c rest =>
          have hd : l.rest.dropWhile isBlank = c :: rest := hr
          have hb : isBlank c = false :=
            head?_dropWhile_eq_false isBlank l.rest c (by rw [hd]; rfl)
          exact Scanner.front?_behind _ _ _ _ hb

theorem spanOffset_mono {m n : Nat} (h : m ≤ n) : spanOffset m ≤ spanOffset n := by
  rw [UInt32.le_iff_toNat_le, toNat_spanOffset, toNat_spanOffset]
  omega

namespace Stands
variable {l : Lexer} {n : Nat} {before : List Char} (h : l.Stands n before)
include h

/-- The span of a token does not end before it starts, also where an offset has no room in it. -/
theorem ofOffsets?_eq (kind : Kind) (text : List Char) :
    Span.ofOffsets? l.lineNumber (byteLength before) (byteLength (before ++ text)) =
      some (l.token kind text).span := by
  have hle : byteLength before ≤ byteLength (before ++ text) := by
    rw [Lexeme.byteLength_append]
    exact Nat.le_add_right _ _
  rw [Span.ofOffsets?, if_pos (spanOffset_mono hle), token, h.offset, Lexeme.byteLength_append]

theorem scanner_take (kind : Kind) {text : List Char} (hp : text <+: l.rest) :
    (l.take kind text).scanner =
      { l.scanner with
        cursor := .behind (before ++ text) (l.rest.drop text.length)
        current := l.token kind text } :=
  (h.take kind hp).scanner_eq

/-- Where the scanner of a lexer has found the front of a token, it fetches what the lexer takes. -/
theorem get?_of_front? {s : Scanner} {j k : Journal} {first : Option Char} {cursor : Cursor}
    {kind : Kind} {text : List Char} (hp : text <+: l.rest)
    (hf : s.front? j = some (first, { l.scanner with cursor := cursor }, k))
    (ht : cursor.token? first =
      some (byteLength before, kind, .behind (before ++ text) (l.rest.drop text.length))) :
    s.get? j =
      some ((l.take kind text).scanner, (check kind k).note (.fetched (l.token kind text))) := by
  rw [Scanner.get?, hf]
  show (cursor.token? first).bind _ = _
  rw [ht]
  show (Span.ofOffsets? l.lineNumber (byteLength before) (byteLength (before ++ text))).bind _ = _
  rw [h.ofOffsets?_eq kind text, h.scanner_take kind hp]
  rfl

/-- A fetch leaves a lexer at a place. -/
theorem fetch (j : Journal) : ∃ before', (l.fetch j).1.Stands n before' := by
  unfold Lexer.fetch
  split
  · exact ⟨_, h.take .terminator List.nil_prefix⟩
  · rename_i c rest hr
    exact ⟨_, h.take _ (hr ▸ Lexeme.startingWith_prefix c rest)⟩

theorem next (j : Journal) : ∃ n' before', (l.next j).1.Stands n' before' := by
  obtain ⟨n', before', hs, -⟩ := front?_scanner h j
  exact ⟨n', hs.fetch (l.seek j).2⟩

end Stands

/-- The scanner at the place of a lexer passes every check of a fetch, and fetches the same token. -/
theorem get?_scanner {l : Lexer} {n : Nat} {before : List Char} (h : l.Stands n before)
    (j : Journal) : l.scanner.get? j = some ((l.next j).1.scanner, (l.next j).2) := by
  obtain ⟨n', before', hs, hf⟩ := front?_scanner h j
  rw [Lexer.next]
  generalize l.seek j = s at hs hf
  obtain ⟨m, k⟩ := s
  dsimp only at hs hf ⊢
  rw [Lexer.fetch]
  cases hr : m.rest with
  | nil =>
      -- the end of the input: nothing is left behind the place
      rw [hr] at hf
      have hc : m.scanner.cursor = .behind before' [] := by
        rw [hs.scanner_eq, hr]
        rfl
      refine hs.get?_of_front? List.nil_prefix hf ?_
      show m.scanner.cursor.token? none = _
      rw [hc, hr, List.append_nil]
      rfl
  | cons c rest =>
      rw [hr] at hf
      refine hs.get?_of_front? (hr ▸ Lexeme.startingWith_prefix c rest) hf ?_
      rw [Cursor.token?, Cursor.start?_behind, Option.bind_some, Cursor.kind?_behind, hr]
      rfl

/-! ### Any fetches and inputs -/

theorem Stands.perform {l : Lexer} {n : Nat} {before : List Char} (h : l.Stands n before)
    (step : Step) : ∃ n' before', (l.perform step).Stands n' before' := by
  cases step with
  | get j          => exact h.next j
  | setInput input => exact ⟨0, [], rfl, rfl, rfl⟩

theorem Stands.performAll {l : Lexer} {n : Nat} {before : List Char} (h : l.Stands n before)
    (steps : List Step) : ∃ n' before', (l.performAll steps).Stands n' before' := by
  induction steps generalizing l n before with
  | nil => exact ⟨n, before, h⟩
  | cons step steps ih =>
      obtain ⟨n', before', hs⟩ := h.perform step
      exact ih hs

end Lexer

namespace Lexer.Stands
variable {l : Lexer} {n : Nat} {before : List Char} (h : l.Stands n before)
include h

theorem perform?_scanner (step : Step) :
    l.scanner.perform? step = some (l.perform step).scanner := by
  cases step with
  | get j =>
      rw [Scanner.perform?, get?_scanner h]
      rfl
  | setInput input => rfl

theorem performAll?_scanner (steps : List Step) :
    l.scanner.performAll? steps = some (l.performAll steps).scanner := by
  induction steps generalizing l n before with
  | nil => rfl
  | cons step steps ih =>
      obtain ⟨n', before', hs⟩ := h.perform step
      rw [Scanner.performAll?, List.foldlM_cons, h.perform?_scanner]
      exact ih hs

/-- The offset of a lexer is a valid position of its line. -/
theorem isValid : String.Pos.Raw.IsValid (String.ofList l.line) ⟨l.offset⟩ := by
  rw [← isSome_cutBytes?_iff, h.line, h.offset, cutBytes?_append]
  rfl

theorem offset_le : l.offset ≤ (String.ofList l.line).utf8ByteSize := by
  rw [utf8ByteSize_ofList, h.line, h.offset, Lexeme.byteLength_append]
  exact Nat.le_add_right _ _

end Lexer.Stands

/-- The span of a token does not end before it starts. -/
theorem Lexer.start_le_stop (l : Lexer) (j : Journal) :
    (l.next j).1.current.span.start ≤ (l.next j).1.current.span.stop := by
  obtain ⟨kind, text, hf⟩ := (l.seek j).1.fetch_eq_take (l.seek j).2
  have hn : (l.next j).1 = ((l.seek j).1.fetch (l.seek j).2).1 := rfl
  rw [hn, hf]
  exact spanOffset_mono (Nat.le_add_right _ _)

/-- **The scan position is safe.**  A lexer has been given any inputs, with any readers, and has fetched
any number of tokens, in any order.  Then its offset is a valid position of its line: it is not beyond
the end of the line, and not inside a character.  The scanner that counts bytes passes every check on
the way there, and it passes every check of the next fetch: every part of a token is scanned from a
place of the line, moves to places only, and takes only text between two places, and the span does not
end before it starts, also where its offsets have no room in it.  It does what the lexer does, so these
are the positions of the lexer.  A read of any bytes at all makes a character to take, and the places
that are checked are the valid positions of strings. -/
theorem scan_positions_valid (input : Input) (steps : List Lexer.Step) :
    let l := (Lexer.ofInput input).performAll steps
    (l.offset ≤ (String.ofList l.line).utf8ByteSize ∧
      String.Pos.Raw.IsValid (String.ofList l.line) ⟨l.offset⟩) ∧
    (Lexer.ofInput input).scanner.performAll? steps = some l.scanner ∧
    (∀ j, l.scanner.get? j = some ((l.next j).1.scanner, (l.next j).2)) ∧
    (∀ j, (l.next j).1.current.span.start ≤ (l.next j).1.current.span.stop) ∧
    (∀ bytes, bytes ≠ [] →
      ∃ c cursor, (Cursor.mk (Utf8.decode bytes) 0).take? = some (c, cursor)) ∧
    ∀ line n, (cutBytes? line n).isSome ↔ String.Pos.Raw.IsValid (String.ofList line) ⟨n⟩ := by
  intro l
  have h : (Lexer.ofInput input).Stands 0 [] := ⟨rfl, rfl, rfl⟩
  obtain ⟨n, before, hs⟩ := h.performAll steps
  refine ⟨⟨hs.offset_le, hs.isValid⟩, h.performAll?_scanner steps, Lexer.get?_scanner hs,
    l.start_le_stop, fun bytes hb => ?_, isSome_cutBytes?_iff⟩
  obtain ⟨c, rest, hd⟩ := List.exists_cons_of_ne_nil (mt Utf8.decode_eq_nil_iff.mp hb)
  exact ⟨c, .behind [c] rest, hd ▸ Cursor.take?_behind [] rest c⟩

end DeskCalculator

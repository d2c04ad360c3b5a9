import DeskCalculator.Proofs.Lexer.Delimiter
import DeskCalculator.Proofs.Lexer.Exhaustion
import DeskCalculator.Proofs.Reader.Lines

/-!
# Tokens — Where a lexer stands

A lexer that is not exhausted stands on a line of its input, behind some characters of it (`Stands`).
A fetch on a line that is not blank takes the lexeme behind the blanks, and the reader is not asked
(`Stands.next_token`).  If the reader of the lexer holds the bytes of the lines after that one
(`OnLine`), a fetch on a blank line is the fetch on the next line (`OnLine.next_line`), or finds the end
(`OnLine.next_end`).  Before its first line a lexer stands on line zero, which is empty.
-/

namespace DeskCalculator

theorem eq_of_isBlank {c : Char} (h : isBlank c = true) :
    c = ' ' ∨ c = '\t' ∨ c = '\r' ∨ c = '\x0B' ∨ c = '\x0C' := by
  simpa only [isBlank, Bool.or_eq_true, beq_iff_eq, or_assoc] using h

namespace Lexeme

theorem byteLength_append (u v : List Char) : byteLength (u ++ v) = byteLength u + byteLength v := by
  induction u with
  | nil => exact (Nat.zero_add _).symm
  | cons c u ih => exact (congrArg (c.utf8Size + ·) ih).trans (Nat.add_assoc _ _ _).symm

/-- Every blank is one byte. -/
theorem utf8Size_of_isBlank {c : Char} (h : isBlank c = true) : c.utf8Size = 1 := by
  rcases eq_of_isBlank h with rfl | rfl | rfl | rfl | rfl <;> rfl

theorem byteLength_of_single {text : List Char} (h : ∀ c ∈ text, c.utf8Size = 1) :
    byteLength text = text.length := by
  induction text with
  | nil => rfl
  | cons c text ih =>
      obtain ⟨hc, ht⟩ := List.forall_mem_cons.mp h
      calc byteLength (c :: text) = c.utf8Size + byteLength text := rfl
        _ = (c :: text).length := by rw [hc, ih ht, List.length_cons, Nat.add_comm]

theorem byteLength_of_blank {text : List Char} (h : ∀ c ∈ text, isBlank c = true) :
    byteLength text = text.length :=
  byteLength_of_single fun c hc => utf8Size_of_isBlank (h c hc)

end Lexeme

/-- The place of `text` behind `before` on line `n`. -/
def Span.at (n : Nat) (before text : List Char) : Span :=
  ⟨UInt32.ofNat n, spanOffset (Lexeme.byteLength before),
    spanOffset (Lexeme.byteLength (before ++ text))⟩

namespace Lexer
open Chunk (newline)

/-- The lexer stands on line `n`, behind `before`. -/
structure Stands (l : Lexer) (n : Nat) (before : List Char) : Prop where
  number : l.lineNumber = UInt32.ofNat n
  line : l.line = before ++ l.rest
  offset : l.offset = Lexeme.byteLength before

/-- The lexer stands on line `n`, behind `before`.  Its reader holds `bytes`, and will have delivered
`total` of them at its end. -/
structure OnLine (l : Lexer) (total n : Nat) (before : List Char) (bytes : List UInt8) : Prop where
  exhausted : l.exhausted = false
  number : l.lineNumber = UInt32.ofNat n
  line : l.line = before ++ l.rest
  offset : l.offset = Lexeme.byteLength before
  holds : l.input.reader.Holds bytes
  consumed : l.input.reader.consumed + bytes.length = total

/-- A lexer that has read nothing stands before its first line. -/
theorem onLine_ofInput {i : Input} {bytes : List UInt8} (h : i.reader.Holds bytes) :
    (ofInput i).OnLine (i.reader.consumed + bytes.length) 0 [] bytes :=
  ⟨rfl, rfl, rfl, rfl, h, rfl⟩

section
variable {l : Lexer} {c : Char} {rest : List Char} (hr : l.rest.dropWhile isBlank = c :: rest)
include hr

/-- On a line that is not blank a fetch takes the lexeme behind the blanks. -/
theorem next_eq_take (j : Journal) :
    (l.next j).1 = l.skipBlanks.take (Lexeme.startingWith c rest).kind
      (Lexeme.startingWith c rest).text := by
  have hs : l.seek j = (l.skipBlanks, j) := seek_here j fun hc => by
    rw [hr] at hc
    exact absurd hc.1 nofun
  have hk : l.skipBlanks.rest = c :: rest := hr
  simp only [next, hs, fetch, hk]

theorem rest_next_lt (j : Journal) : (l.next j).1.rest.length < l.rest.length := by
  have hk : l.skipBlanks.rest = c :: rest := hr
  have hle := length_dropWhile_le isBlank l.rest
  rw [hr] at hle
  rw [next_eq_take hr, take, hk, List.length_drop]
  exact Nat.lt_of_lt_of_le (Nat.sub_lt (Nat.succ_pos _)
    (List.length_pos_iff.mpr (Lexeme.text_startingWith_ne_nil c rest))) hle

theorem unread_next (j : Journal) : (l.next j).1.unread = l.unread := by
  rw [next_eq_take hr]
  rfl

end

section
variable {l : Lexer} (hr : l.rest.dropWhile isBlank = []) (hx : l.exhausted = false)
include hr hx

/-- On a blank line a fetch is the fetch behind a read. -/
theorem next_further (j : Journal) :
    l.next j = (l.skipBlanks.refill j).1.next (l.skipBlanks.refill j).2 := by
  rw [next, seek_further j ⟨List.isEmpty_iff.mpr hr, hx⟩]
  rfl

end

/-- A fetch at the end of the input, which is the end of the line too. -/
theorem next_exhaust (l : Lexer) (r : Reader) (j : Journal) :
    ((l.exhaust r).next j).1 = (l.exhaust r).take .terminator [] := by
  rw [next, seek_exhausted (l := l.exhaust r) j rfl]
  rfl

namespace Stands
variable {l : Lexer} {n : Nat} {before : List Char} (h : l.Stands n before)
include h

theorem skipBlanks : l.skipBlanks.Stands n (before ++ l.rest.takeWhile isBlank) where
  number := h.number
  line := by
    rw [List.append_assoc]
    exact h.line.trans (congrArg (before ++ ·) List.takeWhile_append_dropWhile.symm)
  offset := by
    rw [Lexeme.byteLength_append, ← h.offset,
      Lexeme.byteLength_of_blank fun _ => List.mem_takeWhile_imp]
    rfl

theorem token_eq (kind : Kind) (text : List Char) :
    l.token kind text = ⟨kind, .at n before text⟩ := by
  rw [token, Span.at, h.number, h.offset, Lexeme.byteLength_append]

theorem take (kind : Kind) {text : List Char} (hp : text <+: l.rest) :
    (l.take kind text).Stands n (before ++ text) where
  number := h.number
  line := by
    obtain ⟨rest, hr⟩ := hp
    have hd : l.rest.drop text.length = rest := by rw [← hr, List.drop_left]
    rw [Lexer.take, hd, List.append_assoc, hr]
    exact h.line
  offset := by
    rw [Lexeme.byteLength_append, ← h.offset]
    rfl

/-- The next line, from its start. -/
theorem atLine (r : Reader) (line : List Char) : (l.atLine r line).Stands (n + 1) [] where
  number := by
    rw [Lexer.atLine, UInt32.ofNat_add, ← h.number]
    rfl
  line := rfl
  offset := rfl

/-- A fetch on a line that is not blank. -/
theorem next_token {c : Char} {rest : List Char} (hr : l.rest.dropWhile isBlank = c :: rest)
    (j : Journal) :
    let lexeme := Lexeme.startingWith c rest
    let behind := before ++ l.rest.takeWhile isBlank
    (l.next j).1.Stands n (behind ++ lexeme.text) ∧
      (l.next j).1.current = ⟨lexeme.kind, .at n behind lexeme.text⟩ ∧
      (l.next j).1.rest = (c :: rest).drop lexeme.text.length ∧
      (l.next j).1.input = l.input ∧ (l.next j).1.exhausted = l.exhausted := by
  intro lexeme behind
  have hk : l.skipBlanks.rest = c :: rest := hr
  have hp : lexeme.text <+: l.skipBlanks.rest := hk ▸ Lexeme.startingWith_prefix c rest
  rw [next_eq_take hr]
  refine ⟨h.skipBlanks.take _ hp, h.skipBlanks.token_eq _ _, ?_, rfl, rfl⟩
  exact congrArg (List.drop lexeme.text.length) hk

end Stands

namespace OnLine
variable {l : Lexer} {total n : Nat} {before : List Char} {bytes : List UInt8}
  (h : l.OnLine total n before bytes)
include h

theorem stands : l.Stands n before := ⟨h.number, h.line, h.offset⟩

/-- A fetch on a line that is not blank. -/
theorem next_token {c : Char} {rest : List Char} (hr : l.rest.dropWhile isBlank = c :: rest)
    (j : Journal) :
    let lexeme := Lexeme.startingWith c rest
    let behind := before ++ l.rest.takeWhile isBlank
    (l.next j).1.OnLine total n (behind ++ lexeme.text) bytes ∧
      (l.next j).1.current = ⟨lexeme.kind, .at n behind lexeme.text⟩ ∧
      (l.next j).1.rest = (c :: rest).drop lexeme.text.length ∧
      (l.next j).1.input = l.input := by
  intro lexeme behind
  obtain ⟨hs, hc, hl, hi, hx⟩ := h.stands.next_token hr j
  refine ⟨⟨hx.trans h.exhausted, hs.number, hs.line, hs.offset, ?_, ?_⟩, hc, hl, hi⟩
  · rw [hi]
    exact h.holds
  · rw [hi]
    exact h.consumed

section
variable (hr : l.rest.dropWhile isBlank = [])
include hr

/-- A fetch on a blank line, where another line follows. -/
theorem next_line (hb : bytes ≠ []) (j : Journal) :
    ∃ l' : Lexer, l.next j = l'.next j ∧ l'.OnLine total (n + 1) [] (afterLine newline bytes) ∧
      l'.rest = Utf8.decode (firstLine newline bytes) ∧ l'.unread < l.unread := by
  obtain ⟨r, hl, hh, hc⟩ := Reader.readLine_of_holds h.holds hb
  have hf : l.skipBlanks.refill j =
      (l.skipBlanks.atLine r (Utf8.decode (firstLine newline bytes)), j) := by
    rw [refill, show l.skipBlanks.input.reader.readLine = _ from hl]
  have hu := (unread_refill (l := l.skipBlanks) h.exhausted j).1
  have ht := congrArg List.length (firstLine_append_afterLine newline bytes)
  rw [List.length_append] at ht
  have hn := next_further hr h.exhausted j
  rw [hf] at hu hn
  have hs := h.stands.skipBlanks.atLine r (Utf8.decode (firstLine newline bytes))
  refine ⟨_, hn, ⟨h.exhausted, hs.number, rfl, rfl, hh, ?_⟩, rfl, hu⟩
  have hc' := h.consumed
  rw [← hc', ← ht, atLine, hc, Nat.add_assoc]

/-- A fetch on a blank line, where no other follows. -/
theorem next_end (hb : bytes = []) (j : Journal) :
    (l.next j).1.Rests ∧ (l.next j).1.lineNumber = UInt32.ofNat n ∧
      (l.next j).1.input.reader.Holds [] ∧ (l.next j).1.input.reader.consumed = total := by
  subst hb
  obtain ⟨r, hl, hh, hc⟩ := Reader.readLine_of_holds_nil h.holds
  have hf : l.skipBlanks.refill j = (l.skipBlanks.exhaust r, j) := by
    rw [refill, show l.skipBlanks.input.reader.readLine = _ from hl]
  have hn := next_further hr h.exhausted j
  rw [hf] at hn
  rw [hn, next_exhaust]
  exact ⟨⟨rfl, rfl, rfl, rfl⟩, h.number, hh, hc.trans h.consumed⟩

end

end OnLine

end Lexer

end DeskCalculator

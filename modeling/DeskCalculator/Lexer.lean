import DeskCalculator.Journal
import DeskCalculator.Lexeme
import DeskCalculator.Reader

/-!
# Tokens — The lexer

A lexer takes its input a line at a time and its line a lexeme at a time, and keeps the last token
as the current one.  No token reaches past its line, so what is left of a line and the lines not read
yet are all that is to come.

`next` skips blanks, takes as many lines as it needs to find a lexeme (`seek`), reports a bad token,
and notes the token as an event.  When no line is left the lexer is exhausted: every further token is
a terminator.  `remaining` measures what is to come; each token takes some of it, or is the
terminator of an exhausted lexer (`next_progress`).
-/

namespace DeskCalculator

structure Lexer where
  input : Input
  /-- The line being scanned. -/
  line : List Char
  /-- What of the line is not scanned yet. -/
  rest : List Char
  /-- The number of bytes of the line that are scanned. -/
  offset : Nat
  /-- The number of lines read. -/
  lineNumber : UInt32
  /-- Whether the input has come to its end. -/
  exhausted : Bool
  current : Token
  deriving DecidableEq

/-- An offset as it is kept in a span, which has no room for more than `2 ^ 32 - 1`. -/
def spanOffset (offset : Nat) : UInt32 := UInt32.ofNat (min offset 0xFFFFFFFF)

namespace Lexer

/-- A lexer that has read nothing. -/
def ofInput (input : Input) : Lexer := ⟨input, [], [], 0, 0, false, .initial⟩

/-- Goes on with another input, from its first line.  What is left of the old line is dropped; the
current token stays. -/
def setInput (l : Lexer) (input : Input) : Lexer := { ofInput input with current := l.current }

/-- Passes over the blanks in front, one byte each. -/
def skipBlanks (l : Lexer) : Lexer :=
  { l with
    rest := l.rest.dropWhile isBlank
    offset := l.offset + (l.rest.takeWhile isBlank).length }

/-- The lexer at the end of its input. -/
def exhaust (l : Lexer) (reader : Reader) : Lexer :=
  { l with
    input := ⟨l.input.hold, reader⟩
    line := []
    rest := []
    offset := 0
    exhausted := true }

/-- The lexer at the start of a new line. -/
def atLine (l : Lexer) (reader : Reader) (line : List Char) : Lexer :=
  { l with
    input := ⟨l.input.hold, reader⟩
    line := line
    rest := line
    offset := 0
    lineNumber := l.lineNumber + 1 }

/-- Reads a line.  A failed read is noted and taken for the end of the input. -/
def refill (l : Lexer) (j : Journal) : Lexer × Journal :=
  match l.input.reader.readLine with
  | (.line bytes, reader) => (l.atLine reader (Utf8.decode bytes), j)
  | (.endOfInput, reader) => (l.exhaust reader, j)
  | (.failed message, reader) => (l.exhaust reader, j.note (.readFailed message l.lineNumber))

/-- The measure of what can still be read. -/
def unread (l : Lexer) : Nat := if l.exhausted then 0 else l.input.reader.size + 1

/-- The measure of what is to come, on the line and after it. -/
def remaining (l : Lexer) : Nat := l.rest.length + l.unread

theorem unread_exhaust (l : Lexer) (reader : Reader) : (l.exhaust reader).unread = 0 := rfl

theorem unread_refill {l : Lexer} (h : l.exhausted = false) (j : Journal) :
    (l.refill j).1.unread < l.unread ∧
      (l.refill j).1.rest.length + (l.refill j).1.unread ≤ l.unread := by
  have hu : l.unread = l.input.reader.size + 1 := by simp [unread, h]
  have hs := @Reader.size_readLine l.input.reader
  unfold refill
  split
  · rename_i bytes reader hr
    rw [hr] at hs
    obtain ⟨hne, hle⟩ := hs rfl
    dsimp only at hle
    have hd := Utf8.length_decode bytes
    have hp := List.length_pos_iff.mpr hne
    have ha : (l.atLine reader (Utf8.decode bytes)).unread = reader.size + 1 := by
      simp [unread, atLine, h]
    rw [ha, hu]
    simp only [atLine]
    omega
  · rw [unread_exhaust, hu]
    simp [exhaust]
  · rw [unread_exhaust, hu]
    simp [exhaust]

/-- Goes to the next lexeme: past blanks, and on to further lines as long as a line has run out. -/
def seek (l : Lexer) (j : Journal) : Lexer × Journal :=
  if _ : (l.rest.dropWhile isBlank).isEmpty ∧ l.exhausted = false then
    (l.skipBlanks.refill j).1.seek (l.skipBlanks.refill j).2
  else (l.skipBlanks, j)
termination_by l.unread
decreasing_by
  rename_i h
  exact (unread_refill (l := l.skipBlanks) h.2 j).1

/-- The token of `kind` that covers the next `text` of the line. -/
def token (l : Lexer) (kind : Kind) (text : List Char) : Token :=
  ⟨kind, l.lineNumber, spanOffset l.offset, spanOffset (l.offset + Lexeme.byteLength text)⟩

/-- The lexer with the token of `kind` current, past its `text`. -/
def take (l : Lexer) (kind : Kind) (text : List Char) : Lexer :=
  { l with
    rest := l.rest.drop text.length
    offset := l.offset + Lexeme.byteLength text
    current := l.token kind text }

/-- Reports a token that is bad. -/
def check (kind : Kind) (j : Journal) : Journal :=
  match kind with
  | .bad found => j.report (.badToken found)
  | _          => j

/-- Takes the token at the front of the line, or the terminator at the end of the input. -/
def fetch (l : Lexer) (j : Journal) : Lexer × Journal :=
  match l.rest with
  | [] => (l.take .terminator [], j)
  | c :: rest =>
      match Lexeme.startingWith c rest with
      | ⟨kind, text⟩ => (l.take kind text, check kind j)

/-- Fetches the next token. -/
def next (l : Lexer) (j : Journal) : Lexer × Journal :=
  match l.seek j with
  | (l, j) =>
      match l.fetch j with
      | (l, j) => (l, j.note (.fetched l.current))

/-! ### Every token takes something of what remains -/

theorem length_dropWhile_le (p : Char → Bool) (text : List Char) :
    (text.dropWhile p).length ≤ text.length := by
  have h := congrArg List.length (List.takeWhile_append_dropWhile (p := p) (l := text))
  rw [List.length_append] at h
  omega

theorem remaining_skipBlanks (l : Lexer) : l.skipBlanks.remaining ≤ l.remaining :=
  Nat.add_le_add_right (length_dropWhile_le isBlank l.rest) l.unread

theorem remaining_seek (l : Lexer) (j : Journal) : (l.seek j).1.remaining ≤ l.remaining := by
  fun_induction seek l j with
  | case1 l j h ih =>
      have hr := (unread_refill (l := l.skipBlanks) h.2 j).2
      have hs := remaining_skipBlanks l
      simp only [remaining] at ih hr hs ⊢
      omega
  | case2 l j h => exact remaining_skipBlanks l

theorem exhausted_seek (l : Lexer) (j : Journal) (h : (l.seek j).1.rest = []) :
    (l.seek j).1.exhausted = true := by
  fun_induction seek l j with
  | case1 l j _ ih => exact ih h
  | case2 l j hc =>
      have he : (l.rest.dropWhile isBlank).isEmpty := by
        rw [show l.rest.dropWhile isBlank = [] from h]; rfl
      cases hx : l.exhausted with
      | true => exact hx
      | false => exact absurd ⟨he, hx⟩ hc

theorem unread_take (l : Lexer) (kind : Kind) (text : List Char) :
    (l.take kind text).unread = l.unread := rfl

/-- A token takes something of what remains, or it is the terminator of an exhausted lexer, which has
nothing left. -/
theorem next_progress (l : Lexer) (j : Journal) :
    (l.next j).1.remaining < l.remaining ∨
      (l.next j).1.remaining = 0 ∧ (l.next j).1.current.kind = .terminator ∧
        (l.next j).1.exhausted = true := by
  have hs := remaining_seek l j
  have hx := exhausted_seek l j
  simp only [next]
  generalize l.seek j = s at hs hx
  obtain ⟨l', j'⟩ := s
  simp only [fetch]
  split
  · rename_i hr
    have hx' := hx hr
    refine .inr ⟨?_, rfl, hx'⟩
    have hu : l'.unread = 0 := by simp [unread, show l'.exhausted = true from hx']
    simp only [remaining, unread_take, hu]
    simp [take, show l'.rest = [] from hr]
  · rename_i c rest hr
    refine .inl (Nat.lt_of_lt_of_le ?_ hs)
    have ht := List.length_pos_iff.mpr (Lexeme.text_startingWith_ne_nil c rest)
    generalize Lexeme.startingWith c rest = x at ht
    have hlen : l'.rest.length = rest.length + 1 := by rw [show l'.rest = c :: rest from hr]; rfl
    simp only [remaining, unread_take]
    simp only [take, List.length_drop, hlen]
    omega

/-! ### Input that arrives while it is read -/

/-- Whether the next token may ask for a line. -/
def wantsLine (l : Lexer) : Bool := l.rest.all isBlank && !l.exhausted

/-- Adds chunks to the input. -/
def supply (l : Lexer) (chunks : List Chunk) : Lexer :=
  let reader := l.input.reader
  { l with input := ⟨l.input.hold, reader.chunks ++ chunks, reader.consumed⟩ }

/-! ### All tokens of an input -/

/-- Fetches tokens until the lexer is exhausted.  The terminator that shows the exhaustion is not one
of them. -/
def tokens (l : Lexer) (j : Journal) : List Token × Journal :=
  match _ : l.next j with
  | (l', j') =>
      if _ : l'.current.kind.isTerminator ∧ l'.exhausted then ([], j')
      else
        match l'.tokens j' with
        | (tokens, j'') => (l'.current :: tokens, j'')
termination_by l.remaining
decreasing_by
  rename_i h hx
  rcases next_progress l j with hp | ⟨-, hk, he⟩
  · rwa [h] at hp
  · rw [h] at hk he
    exact absurd ⟨by rw [hk]; rfl, he⟩ hx

end Lexer

/-- The tokens of a text, up to its end, and the journal with the bad ones reported to a buffer. -/
def tokenize (source : String) : List Token × Journal :=
  (Lexer.ofInput (.ofString source)).tokens (.ofSink (.buffer ""))

end DeskCalculator

import DeskCalculator.Proofs.Lexer.History
import Mathlib.Data.List.Forall2

/-!
# Tokens — Line numbers

The tokens of a walk are from lines, and the numbers of these lines never go down (`Tiles.numbered`).
The same holds of the tokens of any fetches from one input, where those at its end have the number of
the last line (`Account`, `exists_account`).

A lexer counts its lines in a word of 32 bits, and a token carries what the counter is at its line.  For
fewer than `2 ^ 32` lines the counter has room, and the tokens carry the numbers of their lines
(`lineNumbers_of_fetches`).  At line `2 ^ 32` it has none: the counter wraps around, and behind the
largest number a token carries zero (`lineNumber_wraps`).
-/

namespace DeskCalculator

/-- The token is from line `n`, which is one of `lines`, the first of which has the number `first`. -/
def Token.From (first : Nat) (lines : List (List Char)) (n : Nat) (token : Token) : Prop :=
  ∃ i before text after, n = first + i ∧ lines[i]? = some (before ++ text ++ after) ∧
    token.span = .at n before text ∧ Denotes after text token.kind

/-- The numbers are those of the lines the tokens are from, and never go down. -/
structure Numbering (first : Nat) (lines : List (List Char)) (numbers : List Nat)
    (tokens : List Token) : Prop where
  sorted : numbers.Pairwise (· ≤ ·)
  from_line : List.Forall₂ (Token.From first lines) numbers tokens

theorem Token.From.first_le {first n : Nat} {lines : List (List Char)} {token : Token}
    (h : token.From first lines n) : first ≤ n := by
  obtain ⟨i, -, -, -, rfl, -⟩ := h
  exact Nat.le_add_right _ _

theorem Tiles.numbered {n : Nat} {before rest : List Char} {lines : List (List Char)}
    {tokens : List Token} (h : Tiles n before rest lines tokens) :
    ∃ numbers, Numbering n ((before ++ rest) :: lines) numbers tokens := by
  induction h with
  | done => exact ⟨[], .nil, .nil⟩
  | @line n before line lines tokens _ ih =>
      -- the same numbers, counted from one line earlier
      obtain ⟨numbers, hs, hf⟩ := ih
      refine ⟨numbers, hs, hf.imp ?_⟩
      rintro m token ⟨i, u, text, v, hm, hi, ht, hk⟩
      exact ⟨i + 1, u, text, v, by omega, hi, ht, hk⟩
  | @blank n before c rest lines tokens _ _ ih =>
      rwa [List.append_assoc] at ih
  | @token n before text rest kind lines tokens hk _ ih =>
      rw [List.append_assoc] at ih
      obtain ⟨numbers, hs, hf⟩ := ih
      have hle : ∀ m ∈ numbers, n ≤ m :=
        ((List.forall₂_and_left _ _).mp (hf.imp fun _ _ h => ⟨h.first_le, h⟩)).1
      refine ⟨n :: numbers, hs.cons hle, .cons ?_ hf⟩
      exact ⟨0, before, text, rest, rfl, by rw [List.append_assoc]; rfl, rfl, hk⟩

/-- What is left of a line can be walked. -/
theorem exists_tiles (n : Nat) (before rest : List Char) : ∃ tokens, Tiles n before rest [] tokens := by
  have h : Lexer.OnLine ⟨⟨.owned, .ofBytes []⟩, before ++ rest, rest, Lexeme.byteLength before,
      UInt32.ofNat n, false, .initial⟩ 0 n before [] :=
    ⟨rfl, rfl, rfl, rfl, Reader.holds_ofBytes [], rfl⟩
  exact ⟨_, tiles_coming h⟩

/-- Before the first line there is no token, so the tokens of a whole walk are from the lines. -/
theorem Tiles.numbered_lines {lines : List (List Char)} {tokens : List Token}
    (h : Tiles 0 [] [] lines tokens) : ∃ numbers, Numbering 1 lines numbers tokens := by
  obtain ⟨numbers, hs, hf⟩ := h.numbered
  refine ⟨numbers, hs, hf.imp ?_⟩
  rintro n token ⟨i, u, text, v, hn, hi, ht, hk⟩
  cases i with
  | zero =>
      have he := Option.some.inj hi
      rw [List.append_nil, List.nil_eq_append_iff, List.append_eq_nil_iff] at he
      exact absurd he.1.2 hk.ne_nil
  | succ i => exact ⟨i, u, text, v, by omega, hi, ht, hk⟩

namespace Numbering
variable {first : Nat} {lines : List (List Char)} {numbers : List Nat} {tokens more : List Token}

theorem take (h : Numbering first lines numbers (tokens ++ more)) :
    Numbering first lines (numbers.take tokens.length) tokens where
  sorted := h.sorted.take
  from_line := List.forall₂_take_append _ _ _ h.from_line

end Numbering

namespace Lexer
variable {start : Reader} {lines : List (List UInt8)} {tokens : List Token} {l : Lexer}

theorem Walked.numbered {before : List Char} (h : l.Walked start lines before tokens) :
    ∃ numbers, Numbering 1 (lines.map Utf8.decode) numbers tokens := by
  obtain ⟨more, ht⟩ := exists_tiles lines.length before l.rest
  have hw := h.tiles ht
  rw [List.append_nil] at hw
  obtain ⟨numbers, hn⟩ := hw.numbered_lines
  exact ⟨_, hn.take⟩

end Lexer

/-- The token is from line `n`, or it is the terminator of a lexer at its end, and `n` is the number of
the last line. -/
def Token.Carries (exhausted : Bool) (lines : List (List Char)) (n : Nat) (token : Token) : Prop :=
  token.From 1 lines n ∨
    exhausted = true ∧ n = lines.length ∧ token = ⟨.terminator, UInt32.ofNat n, 0, 0⟩

namespace Token.Carries
variable {exhausted : Bool} {lines : List (List Char)} {n : Nat} {token : Token}
  (h : token.Carries exhausted lines n)
include h

theorem line_eq : token.span.line = UInt32.ofNat n := by
  rcases h with ⟨i, u, text, v, -, -, ht, -⟩ | ⟨-, -, rfl⟩
  · rw [ht]
    rfl
  · rfl

theorem le_length : n ≤ lines.length := by
  rcases h with ⟨i, u, text, v, rfl, hi, -⟩ | ⟨-, rfl, -⟩
  · have hlt := (List.getElem?_eq_some_iff.mp hi).1
    omega
  · exact Nat.le_refl _

end Token.Carries

theorem Token.Carries.le_of_mem {exhausted : Bool} {lines : List (List Char)} {numbers : List Nat}
    {tokens : List Token} (h : List.Forall₂ (Token.Carries exhausted lines) numbers tokens) :
    ∀ n ∈ numbers, n ≤ lines.length :=
  ((List.forall₂_and_left _ _).mp (h.imp fun _ _ h => ⟨h.le_length, h⟩)).1

/-- `lines` have been read from `start`, and `numbers` are those of the lines that the fetched tokens are
from, or that of the last line at the end. -/
structure Account (start : Reader) (tokens : List Token) (l : Lexer) (lines : List (List UInt8))
    (numbers : List Nat) : Prop where
  /-- The reader is behind the lines, or it was asked for one more and gave none. -/
  read : ∃ reader, start.Reads lines reader ∧ (l.input.reader = reader ∨
    (∀ bytes, reader.readLine.1 ≠ .line bytes) ∧ l.input.reader = reader.readLine.2)
  counted : l.lineNumber = UInt32.ofNat lines.length
  sorted : numbers.Pairwise (· ≤ ·)
  carried : List.Forall₂ (Token.Carries l.exhausted (lines.map Utf8.decode)) numbers tokens

namespace Lexer
variable {start : Reader} {lines : List (List UInt8)} {tokens : List Token} {l : Lexer}

theorem Walked.account {before : List Char} (h : l.Walked start lines before tokens) :
    ∃ numbers, Account start tokens l lines numbers := by
  obtain ⟨numbers, hs, hf⟩ := h.numbered
  exact ⟨numbers, ⟨_, h.reads, .inl rfl⟩, h.stands.number, hs, hf.imp fun _ _ => .inl⟩

theorem WalkedThrough.account (h : l.WalkedThrough start lines tokens) (k : Nat) :
    ∃ numbers, Account start (tokens ++ List.replicate k l.current) l lines numbers := by
  obtain ⟨numbers, hs, hf⟩ := h.tiles.numbered_lines
  obtain ⟨r, hr, hn, hl⟩ := h.reads
  have hc : List.Forall₂ (Token.Carries l.exhausted (lines.map Utf8.decode)) numbers tokens :=
    hf.imp fun _ _ => .inl
  have he : l.current.Carries l.exhausted (lines.map Utf8.decode) lines.length :=
    .inr ⟨h.rests.exhausted, (List.length_map _).symm, h.current⟩
  refine ⟨numbers ++ List.replicate k lines.length, ⟨r, hr, .inr ⟨hn, hl⟩⟩, h.number, ?_, ?_⟩
  · -- no line comes behind the last one
    refine List.pairwise_append.mpr ⟨hs, List.pairwise_replicate.mpr (.inr (Nat.le_refl _)), ?_⟩
    intro n hn m hm
    rw [List.eq_of_mem_replicate hm, ← List.length_map Utf8.decode]
    exact Token.Carries.le_of_mem hc n hn
  · exact List.rel_append hc (List.forall₂_iff_get.mpr ⟨by simp, fun i _ _ => by simpa using he⟩)

theorem exists_account (l : Lexer) (input : Input) (journals : List Journal) :
    let fetched := (l.setInput input).fetchAll journals
    ∃ lines numbers, Account input.reader fetched.1 fetched.2 lines numbers := by
  intro fetched
  rcases (walked_setInput l input).fetchAll journals with
    ⟨lines, before, hw⟩ | ⟨lines, tokens, k, ho, hk⟩
  · exact ⟨lines, hw.account⟩
  · have ha := ho.account k
    rw [List.nil_append, ← hk] at ha
    exact ⟨lines, ha⟩

/-- A read adds one to the counter as long as there is room for it. -/
theorem lineNumber_refill_iff {bytes : List UInt8} {r : Reader}
    (h : l.input.reader.readLine = (.line bytes, r)) (j : Journal) :
    (l.refill j).1.lineNumber.toNat = l.lineNumber.toNat + 1 ↔
      l.lineNumber.toNat + 1 < UInt32.size := by
  have ha : (l.refill j).1.lineNumber = l.lineNumber + 1 := by
    rw [refill, h]
    rfl
  have hn : (l.lineNumber + 1).toNat = (l.lineNumber.toNat + 1) % UInt32.size :=
    UInt32.toNat_add _ _
  rw [ha, hn, Nat.mod_eq_iff_lt (by decide)]

end Lexer

namespace Account
variable {start : Reader} {tokens : List Token} {l : Lexer} {lines : List (List UInt8)}
  {numbers : List Nat} (h : Account start tokens l lines numbers)
include h

theorem le_length : ∀ n ∈ numbers, n ≤ lines.length := by
  have hle := Token.Carries.le_of_mem h.carried
  rwa [List.length_map] at hle

/-- The counter has room for so many lines and no more. -/
theorem lineNumber_iff : l.lineNumber.toNat = lines.length ↔ lines.length < UInt32.size := by
  rw [h.counted, UInt32.toNat_ofNat', Nat.mod_eq_iff_lt (by decide)]

/-- A token carries the number of its line as far as there is room for it. -/
theorem lines_eq : tokens.map (·.span.line.toNat) = numbers.map (· % UInt32.size) := by
  have he : List.Forall₂ (· = ·) (numbers.map (· % UInt32.size)) (tokens.map (·.span.line.toNat)) := by
    rw [List.forall₂_map_left_iff, List.forall₂_map_right_iff]
    refine h.carried.imp fun n token hc => ?_
    rw [hc.line_eq, UInt32.toNat_ofNat']
  rw [List.forall₂_eq_eq_eq] at he
  exact he.symm

theorem lines_eq_iff : tokens.map (·.span.line.toNat) = numbers ↔ ∀ n ∈ numbers, n < UInt32.size := by
  have hm : numbers.map (· % UInt32.size) = numbers.map id ↔ ∀ n ∈ numbers, n < UInt32.size :=
    List.map_eq_map_iff.trans (forall₂_congr fun n _ => Nat.mod_eq_iff_lt (by decide))
  rwa [← h.lines_eq, List.map_id] at hm

theorem pairwise_line_le (hl : lines.length < UInt32.size) :
    tokens.Pairwise fun t u => t.span.line ≤ u.span.line := by
  have hn : tokens.map (·.span.line.toNat) = numbers :=
    h.lines_eq_iff.mpr fun n hm => Nat.lt_of_le_of_lt (h.le_length n hm) hl
  have hs := h.sorted
  rw [← hn, List.pairwise_map] at hs
  exact hs.imp UInt32.le_iff_toNat_le.mpr

end Account

/-- **Tokens carry the numbers of their lines as long as there is room for them.**  The numbers of the
lines that fetched tokens are from never go down, and a terminator at the end has the number of the last
line.  A read adds one to the counter unless that would be `2 ^ 32`; the counter is the number of lines
that were read, and the tokens carry the numbers of their lines, exactly if these are below `2 ^ 32`. -/
theorem lineNumbers_of_fetches (l : Lexer) (input : Input) (journals : List Journal) :
    let fetched := (l.setInput input).fetchAll journals
    (∃ lines numbers, Account input.reader fetched.1 fetched.2 lines numbers ∧
      (fetched.2.lineNumber.toNat = lines.length ↔ lines.length < UInt32.size) ∧
      (fetched.1.map (·.span.line.toNat) = numbers ↔ ∀ n ∈ numbers, n < UInt32.size) ∧
      (lines.length < UInt32.size → (∀ n ∈ numbers, n < UInt32.size) ∧
        fetched.1.Pairwise fun t u => t.span.line ≤ u.span.line)) ∧
    ∀ (m : Lexer) (bytes : List UInt8) (r : Reader) (j : Journal),
      m.input.reader.readLine = (.line bytes, r) →
        ((m.refill j).1.lineNumber.toNat = m.lineNumber.toNat + 1 ↔
          m.lineNumber.toNat + 1 < UInt32.size) := by
  intro fetched
  obtain ⟨lines, numbers, h⟩ := Lexer.exists_account l input journals
  refine ⟨⟨lines, numbers, h, h.lineNumber_iff, h.lines_eq_iff, fun hl => ⟨fun n hm => ?_, ?_⟩⟩, ?_⟩
  · exact Nat.lt_of_le_of_lt (h.le_length n hm) hl
  · exact h.pairwise_line_le hl
  · exact fun m bytes r j hr => Lexer.lineNumber_refill_iff hr j

/-! ### More lines than there are numbers -/

/-- An input of `n` newlines. -/
def Input.newlines (n : Nat) : Input := ⟨.owned, .ofBytes (List.replicate n Chunk.newline)⟩

/-- The terminator that the newline of line `n` is, where nothing stands before it. -/
def Token.newline (n : Nat) : Token := ⟨.terminator, .at n [] ['\n']⟩

namespace Lexer
variable {l : Lexer} {total n m : Nat} {before : List Char}

/-- A fetch behind a line is the newline that the next line is. -/
theorem OnLine.next_newline (h : l.OnLine total n before (List.replicate (m + 1) Chunk.newline))
    (hr : l.rest = []) (j : Journal) :
    (l.next j).1.OnLine total (n + 1) ['\n'] (List.replicate m Chunk.newline) ∧
      (l.next j).1.rest = [] ∧ (l.next j).1.current = .newline (n + 1) := by
  obtain ⟨l', hn, ho, hl, -⟩ := h.next_line (by rw [hr]; rfl) (List.replicate_succ ▸ nofun) j
  rw [List.replicate_succ, firstLine, if_pos rfl] at hl
  rw [List.replicate_succ, afterLine, if_pos rfl] at ho
  have hf : l'.rest.dropWhile isBlank = ['\n'] := by
    rw [hl]
    rfl
  obtain ⟨ht, hc, hd, -⟩ := ho.next_token hf j
  rw [hl] at ht hc
  rw [hn]
  exact ⟨ht, hd, hc⟩

/-- Fetch after fetch gives newline after newline. -/
theorem OnLine.fetchAll_newlines (journals : List Journal)
    (h : l.OnLine total n before (List.replicate journals.length Chunk.newline)) (hr : l.rest = []) :
    (l.fetchAll journals).1 = (List.range' (n + 1) journals.length).map Token.newline ∧
      (l.fetchAll journals).2.lineNumber = UInt32.ofNat (n + journals.length) := by
  induction journals generalizing l n before with
  | nil => exact ⟨rfl, h.number⟩
  | cons j journals ih =>
      obtain ⟨ho, hl, hc⟩ := h.next_newline hr j
      obtain ⟨ht, hn⟩ := ih ho hl
      rw [Nat.add_assoc, Nat.add_comm 1] at hn
      rw [fetchAll, List.length_cons, List.range'_succ, List.map_cons, ← hc, ← ht]
      exact ⟨rfl, hn⟩

/-- The tokens of `n` newlines, fetched one after the other, and the lexer behind them. -/
def overNewlines (n : Nat) : List Token × Lexer :=
  (ofInput (.newlines n)).fetchAll (List.replicate n (.ofSink .silent))

theorem overNewlines_spec (n : Nat) :
    (∀ i < n, (overNewlines n).1[i]? = some (.newline (i + 1))) ∧
      (overNewlines n).2.lineNumber = UInt32.ofNat n := by
  have h := onLine_ofInput (i := .newlines n) (Reader.holds_ofBytes (List.replicate n Chunk.newline))
  rw [← List.length_replicate (n := n) (a := Journal.ofSink .silent)] at h
  obtain ⟨ht, hn⟩ := OnLine.fetchAll_newlines _ h rfl
  rw [List.length_replicate] at ht hn
  refine ⟨fun i hi => ?_, hn.trans (congrArg UInt32.ofNat (Nat.zero_add n))⟩
  rw [overNewlines, ht, List.getElem?_map, List.getElem?_range' hi, Nat.one_mul, Nat.zero_add,
    Nat.add_comm]
  rfl

end Lexer

/-- **The counter wraps around.**  Behind the newline that is line `2 ^ 32 - 1` comes one of line zero,
and when `2 ^ 32` lines have been read, the counter is what it was before the first. -/
theorem lineNumber_wraps :
    (Lexer.overNewlines UInt32.size).1[UInt32.size - 2]? = some ⟨.terminator, 0xFFFFFFFF, 0, 1⟩ ∧
      (Lexer.overNewlines UInt32.size).1[UInt32.size - 1]? = some ⟨.terminator, 0, 0, 1⟩ ∧
      (Lexer.overNewlines UInt32.size).2.lineNumber = 0 := by
  obtain ⟨ht, hn⟩ := Lexer.overNewlines_spec UInt32.size
  have hlast : Token.newline (UInt32.size - 2 + 1) = ⟨.terminator, 0xFFFFFFFF, 0, 1⟩ := by decide
  have hnext : Token.newline (UInt32.size - 1 + 1) = ⟨.terminator, 0, 0, 1⟩ := by decide
  have hzero : UInt32.ofNat UInt32.size = 0 := by decide
  refine ⟨?_, ?_, ?_⟩
  · rw [ht _ (by decide), hlast]
  · rw [ht _ (by decide), hnext]
  · rw [hn, hzero]

end DeskCalculator

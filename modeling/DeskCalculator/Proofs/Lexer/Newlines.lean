import DeskCalculator.Proofs.Lexer.Walk
import Mathlib.Data.List.Basic

/-!
# Tokens — Lines that end

Where every line of an input ends with a newline, a lexer in the middle of a line has that newline
still to come (`Inside`), and a lexer that has scanned its line has the terminator of the newline as
its current token (`Behind`).  A fetch within a line takes a token of the line, and the reader is not
asked (`Inside.next`); only a fetch behind a line reads, and what it reads is the one line that follows
(`next_of_scanned`).
-/

namespace DeskCalculator

/-- A line of bytes with a newline at its end and nowhere else. -/
def Terminated (line : List UInt8) : Prop := ∃ u, Chunk.newline ∉ u ∧ line = u ++ [Chunk.newline]

section
open Chunk (newline)
variable {line : List UInt8} (h : Terminated line) (bytes : List UInt8)
include h

theorem Terminated.firstLine_append : firstLine newline (line ++ bytes) = line := by
  obtain ⟨u, hu, rfl⟩ := h
  rw [List.append_assoc, DeskCalculator.firstLine_append hu]
  exact congrArg (u ++ ·) (if_pos rfl)

theorem Terminated.afterLine_append : afterLine newline (line ++ bytes) = bytes := by
  obtain ⟨u, hu, rfl⟩ := h
  rw [List.append_assoc, DeskCalculator.afterLine_append hu]
  exact if_pos rfl

/-- The newline is one of the characters too, and the last of them. -/
theorem Terminated.getLast?_decode : (Utf8.decode line).getLast? = some '\n' := by
  -- a byte more makes the line one that is not the last
  have hf : Utf8.decode (firstLine newline (line ++ [newline])) = _ := Utf8.decode_firstLine _
  have ha : Utf8.decode (afterLine newline (line ++ [newline])) = _ := Utf8.decode_afterLine _
  rw [h.firstLine_append] at hf
  rw [h.afterLine_append] at ha
  have hn : afterLine '\n' (Utf8.decode (line ++ [newline])) ≠ [] := fun hn =>
    absurd (Utf8.decode_eq_nil_iff.mp (ha.trans hn)) nofun
  obtain ⟨u, hu⟩ := (firstLine_ends '\n' (Utf8.decode (line ++ [newline]))).resolve_right hn
  rw [hf, hu, List.getLast?_concat]

end

namespace Lexer

variable (lines : List (List UInt8)) (total : Nat)

/-- The lexer stands on the line `lines[i]`, and its reader holds the lines after it. -/
def StandsOn (i : Nat) (l : Lexer) : Prop :=
  ∃ bytes before, lines[i]? = some bytes ∧ Utf8.decode bytes = l.line ∧
    l.OnLine total (i + 1) before (lines.drop (i + 1)).flatten

/-- The newline of the line is still to come. -/
structure Inside (i : Nat) (l : Lexer) : Prop where
  standsOn : l.StandsOn lines total i
  rest : l.rest.getLast? = some '\n'

/-- The newline of the line is the current token. -/
structure Behind (i : Nat) (l : Lexer) : Prop where
  standsOn : l.StandsOn lines total i
  rest : l.rest = []
  current : ∃ u, l.line = u ++ ['\n'] ∧ l.current = ⟨.terminator, .at (i + 1) u ['\n']⟩

/-- The current token is one of the line `lines[i]`. -/
def TookFrom (i : Nat) (l : Lexer) : Prop :=
  ∃ bytes before text after, lines[i]? = some bytes ∧ Utf8.decode bytes = before ++ text ++ after ∧
    l.current.span = .at (i + 1) before text ∧ Denotes after text l.current.kind

variable {lines total} {i : Nat} {l : Lexer}

/-- A fetch within a line takes a token of the line, and does not read. -/
theorem Inside.next (h : l.Inside lines total i) (j : Journal) :
    ((l.next j).1.Inside lines total i ∨ (l.next j).1.Behind lines total i) ∧
      (l.next j).1.input = l.input ∧ (l.next j).1.TookFrom lines i := by
  obtain ⟨bytes, before, hi, hd, ho⟩ := h.standsOn
  obtain ⟨c, rest, hr⟩ : ∃ c rest, l.rest.dropWhile isBlank = c :: rest := by
    refine List.exists_cons_of_ne_nil fun hn => ?_
    exact absurd (List.dropWhile_eq_nil_iff.mp hn '\n' (List.mem_of_getLast? h.rest)) (by decide)
  have hlast : (c :: rest).getLast? = some '\n' := by
    have hg := h.rest
    rw [← List.takeWhile_append_dropWhile (p := isBlank) (l := l.rest), hr,
      List.getLast?_append_of_ne_nil _ (List.cons_ne_nil c rest)] at hg
    exact hg
  obtain ⟨ho', hc, hl, hin⟩ := ho.next_token hr j
  have hb : isBlank c = false := head?_dropWhile_eq_false isBlank l.rest c (by rw [hr]; rfl)
  have hk := denotes_startingWith rest hb
  have hcat := startingWith_append_drop c rest
  have hline : (l.next j).1.line = l.line := by
    rw [next_eq_take hr]
    rfl
  rw [← hl] at hk hcat
  have hs : (l.next j).1.StandsOn lines total i := ⟨bytes, _, hi, hd.trans hline.symm, ho'⟩
  refine ⟨?_, hin, bytes, before ++ l.rest.takeWhile isBlank, (Lexeme.startingWith c rest).text,
    (l.next j).1.rest, hi, ?_, ?_, ?_⟩
  · by_cases hn : (l.next j).1.rest = []
    · -- what ends the line is a token of its own
      rw [hn, List.append_nil] at hcat
      obtain ⟨ht, hk⟩ := hk.eq_of_separates (hcat ▸ List.mem_of_getLast? hlast) (.inl rfl)
      have hu := ho'.line
      rw [hn, List.append_nil, ht] at hu
      rw [ht, hk] at hc
      exact .inr ⟨hs, hn, _, hu, hc⟩
    · rw [← hcat, List.getLast?_append_of_ne_nil _ hn] at hlast
      exact .inl ⟨hs, hlast⟩
  · rw [hd, ← hline]
    exact ho'.line
  · rw [hc]
  · rw [hc]
    exact hk

/-- A fetch behind a line goes on with the line after it. -/
theorem next_of_scanned {before : List Char} (hl : ∀ line ∈ lines, Terminated line)
    (h : l.OnLine total i before (lines.drop i).flatten) (hr : l.rest = []) (hi : i < lines.length)
    (j : Journal) : ∃ l' : Lexer, l.next j = l'.next j ∧ l'.Inside lines total i := by
  have hd := List.drop_eq_getElem_cons hi
  have ht := hl lines[i] (List.getElem_mem hi)
  rw [hd, List.flatten_cons] at h
  have hne : lines[i] ++ (lines.drop (i + 1)).flatten ≠ [] := by
    obtain ⟨u, -, hu⟩ := ht
    rw [hu]
    simp
  obtain ⟨l', hn, ho, hl', -⟩ := h.next_line (by rw [hr]; rfl) hne j
  rw [ht.afterLine_append] at ho
  rw [ht.firstLine_append] at hl'
  refine ⟨l', hn, ⟨lines[i], [], List.getElem?_eq_getElem hi, ?_, ho⟩, ?_⟩
  · rw [← hl']
    exact ho.line.symm
  · rw [hl']
    exact ht.getLast?_decode

end Lexer

end DeskCalculator

import DeskCalculator.Proofs.Decimal.Positional
import DeskCalculator.Proofs.Journal.Growth
import DeskCalculator.Session
import Mathlib.Data.List.Basic

/-!
# Sessions — The lines of an outcome

Results and diagnostics are written one to a line, and are read back as lines.  Lines that hold no
newline and no carriage return come back as they are (`splitLines_unlines`).  Neither the text of a
double nor the diagnostic line of a problem holds one.
-/

namespace DeskCalculator

/-- Neither a newline nor a carriage return is among the characters. -/
def Unbroken (line : List Char) : Prop := ∀ c ∈ line, c ≠ '\n' ∧ c ≠ '\r'

theorem Unbroken.append {u v : List Char} (hu : Unbroken u) (hv : Unbroken v) : Unbroken (u ++ v) :=
  fun c h => (List.mem_append.mp h).elim (hu c) (hv c)

/-- A line, with the newline that ends it, and what is behind. -/
theorem splitLines_line {line : List Char} (h : Unbroken line) (text : List Char) :
    splitLines (line ++ '\n' :: text) = line :: splitLines text := by
  induction line with
  | nil => rw [List.nil_append, splitLines]
  | cons c line ih =>
      obtain ⟨hc, hl⟩ := List.forall_mem_cons.mp h
      rw [List.cons_append, splitLines.eq_4 c _ hc.1 fun _ hr _ => hc.2 hr, ih hl]

/-- **Lines are read back as they were written.** -/
theorem splitLines_unlines {lines : List String} (h : ∀ line ∈ lines, Unbroken line.toList) :
    (splitLines (unlines lines).toList).map String.ofList = lines := by
  induction lines with
  | nil => rfl
  | cons line lines ih =>
      obtain ⟨hl, hls⟩ := List.forall_mem_cons.mp h
      have ht : (unlines (line :: lines)).toList = line.toList ++ '\n' :: (unlines lines).toList := by
        simp [unlines_cons]
      rw [ht, splitLines_line hl, List.map_cons, ih hls, String.ofList_toList]

/-! ### What is written on a line -/

/-- A positional text is that of a numeral. -/
theorem unbroken_positional (d : Decimal) : Unbroken d.positional := by
  rw [← d.text_numeral]
  intro c h
  have hn := Numeral.ofNumeral_of_mem d.written_numeral c h
  constructor
  · rintro rfl
    exact absurd hn (by simp [ofNumeral])
  · rintro rfl
    exact absurd hn (by simp [ofNumeral])

theorem unbroken_text (x : Float) : Unbroken (Double.text x).toList := by
  have hs : Unbroken (if x.toBits.toNat < Double.signBit then "" else "-").toList := by
    split <;> simp [Unbroken]
  unfold Double.text
  dsimp only
  split
  · simp [Unbroken]
  · split
    · rw [String.toList_append]
      exact hs.append (by simp [Unbroken])
    · rw [String.toList_append, String.toList_ofList]
      exact hs.append (unbroken_positional _)

theorem unbroken_line (p : Problem) : Unbroken p.line.toList := by
  cases p <;> simp [Unbroken, Problem.line, Problem.message]

theorem splitLines_texts (values : List Float) :
    (splitLines (unlines (values.map Double.text)).toList).map String.ofList =
      values.map Double.text := by
  refine splitLines_unlines fun line h => ?_
  obtain ⟨x, -, rfl⟩ := List.mem_map.mp h
  exact unbroken_text x

theorem splitLines_problems (problems : List Problem) :
    (splitLines (unlines (problems.map Problem.line)).toList).map String.ofList =
      problems.map Problem.line := by
  refine splitLines_unlines fun line h => ?_
  obtain ⟨p, -, rfl⟩ := List.mem_map.mp h
  exact unbroken_line p

end DeskCalculator

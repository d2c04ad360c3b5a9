import Mathlib.Data.List.DropRight

/-!
# Text — Lines

A text is cut behind the first of its marks: the first line, with the mark that ends it, and what
follows it.  Only the last line of a text may be without a mark.  Cut behind all of its marks, the
text falls into its lines (`cutLines`); cut behind the last of them, into its whole lines and what is
open (`wholeLines`, `openLine`).
-/

namespace DeskCalculator

variable {α : Type} [DecidableEq α] (mark : α)

/-- What stands before the first mark, and the mark. -/
def firstLine : List α → List α
  | []      => []
  | x :: xs => if x = mark then [x] else x :: firstLine xs

/-- What stands behind the first mark. -/
def afterLine : List α → List α
  | []      => []
  | x :: xs => if x = mark then xs else afterLine xs

theorem firstLine_append_afterLine (l : List α) : firstLine mark l ++ afterLine mark l = l := by
  induction l with
  | nil => rfl
  | cons x xs ih =>
      by_cases h : x = mark
      · simp [firstLine, afterLine, h]
      · simp [firstLine, afterLine, h, ih]

theorem firstLine_eq_nil_iff {l : List α} : firstLine mark l = [] ↔ l = [] := by
  cases l with
  | nil => simp [firstLine]
  | cons x xs => by_cases h : x = mark <;> simp [firstLine, h]

/-- A line that does not end with the mark is the last one. -/
theorem firstLine_ends (l : List α) :
    (∃ u, firstLine mark l = u ++ [mark]) ∨ afterLine mark l = [] := by
  induction l with
  | nil => exact .inr rfl
  | cons x xs ih =>
      by_cases h : x = mark
      · exact .inl ⟨[], by simp [firstLine, h]⟩
      · rcases ih with ⟨u, hu⟩ | hn
        · exact .inl ⟨x :: u, by simp [firstLine, h, hu]⟩
        · exact .inr (by simp [afterLine, h, hn])

theorem firstLine_eq_takeWhile (l : List α) :
    firstLine mark l = l.takeWhile (· != mark) ++ (l.dropWhile (· != mark)).take 1 := by
  induction l with
  | nil => rfl
  | cons x xs ih => by_cases h : x = mark <;> simp [firstLine, h, ih]

theorem afterLine_eq_dropWhile (l : List α) :
    afterLine mark l = (l.dropWhile (· != mark)).drop 1 := by
  induction l with
  | nil => rfl
  | cons x xs ih => by_cases h : x = mark <;> simp [afterLine, h, ih]

section
variable {mark} {u : List α} (h : mark ∉ u) (v : List α)
include h

theorem firstLine_append : firstLine mark (u ++ v) = u ++ firstLine mark v := by
  induction u with
  | nil => rfl
  | cons x xs ih =>
      rw [List.mem_cons, not_or] at h
      simp [firstLine, Ne.symm h.1, ih h.2]

theorem afterLine_append : afterLine mark (u ++ v) = afterLine mark v := by
  induction u with
  | nil => rfl
  | cons x xs ih =>
      rw [List.mem_cons, not_or] at h
      simp [afterLine, Ne.symm h.1, ih h.2]

end

/-- A text without the mark is one line. -/
theorem firstLine_of_not_mem {mark : α} {l : List α} (h : mark ∉ l) : firstLine mark l = l := by
  rw [← List.append_nil l, firstLine_append h]
  rfl

theorem afterLine_of_not_mem {mark : α} {l : List α} (h : mark ∉ l) : afterLine mark l = [] := by
  rw [← List.append_nil l, afterLine_append h]
  rfl

/-- A line that ends with the mark is the first one whatever follows. -/
theorem firstLine_append_of_mem {mark : α} {l : List α} (h : mark ∈ l) (v : List α) :
    firstLine mark (l ++ v) = firstLine mark l := by
  induction l with
  | nil => cases h
  | cons x xs ih =>
      by_cases hx : x = mark
      · simp [firstLine, hx]
      · simp [firstLine, hx, ih ((List.mem_cons.mp h).resolve_left (Ne.symm hx))]

theorem afterLine_append_of_mem {mark : α} {l : List α} (h : mark ∈ l) (v : List α) :
    afterLine mark (l ++ v) = afterLine mark l ++ v := by
  induction l with
  | nil => cases h
  | cons x xs ih =>
      by_cases hx : x = mark
      · simp [afterLine, hx]
      · simp [afterLine, hx, ih ((List.mem_cons.mp h).resolve_left (Ne.symm hx))]

/-! ### All lines -/

/-- The lines of a text, each with the mark that ends it. -/
def cutLines : List α → List (List α)
  | []      => []
  | x :: xs =>
      if x = mark then [x] :: cutLines xs
      else
        match cutLines xs with
        | []            => [[x]]
        | line :: lines => (x :: line) :: lines

theorem cutLines_of_ne_nil {l : List α} (h : l ≠ []) :
    cutLines mark l = firstLine mark l :: cutLines mark (afterLine mark l) := by
  induction l with
  | nil => exact absurd rfl h
  | cons x xs ih =>
      by_cases hx : x = mark
      · simp only [cutLines, firstLine, afterLine, if_pos hx]
      · simp only [cutLines, firstLine, afterLine, if_neg hx]
        cases xs with
        | nil => rfl
        | cons y ys => rw [ih nofun]

/-- Nothing of a text is lost between its lines. -/
theorem flatten_cutLines (l : List α) : (cutLines mark l).flatten = l := by
  induction l with
  | nil => rfl
  | cons x xs ih =>
      by_cases hx : x = mark
      · rw [cutLines, if_pos hx, List.flatten_cons, ih]
        rfl
      · rw [cutLines, if_neg hx]
        generalize cutLines mark xs = lines at ih
        subst ih
        cases lines <;> rfl

/-- A line ends at its mark. -/
theorem not_mem_dropLast_cutLines {l line : List α} (h : line ∈ cutLines mark l) :
    mark ∉ line.dropLast := by
  induction l generalizing line with
  | nil => cases h
  | cons x xs ih =>
      by_cases hx : x = mark
      · rw [cutLines, if_pos hx, List.mem_cons] at h
        rcases h with rfl | h
        · exact List.not_mem_nil
        · exact ih h
      · rw [cutLines, if_neg hx] at h
        generalize cutLines mark xs = lines at h ih
        cases lines with
        | nil =>
            cases List.mem_singleton.mp h
            exact List.not_mem_nil
        | cons first lines =>
            rcases List.mem_cons.mp h with rfl | h
            · have hf := ih List.mem_cons_self
              cases first with
              | nil => exact List.not_mem_nil
              | cons y ys =>
                  rw [List.dropLast_cons_cons, List.mem_cons, not_or]
                  exact ⟨Ne.symm hx, hf⟩
            · exact ih (List.mem_cons_of_mem first h)

theorem ne_nil_of_mem_cutLines {l line : List α} (h : line ∈ cutLines mark l) : line ≠ [] := by
  fun_induction cutLines mark l with
  | case1 => cases h
  | case2 xs ih =>
      rcases List.mem_cons.mp h with rfl | h
      · nofun
      · exact ih h
  | case3 x xs hx hc ih =>
      cases List.mem_singleton.mp h
      nofun
  | case4 x xs hx first lines hc ih =>
      rcases List.mem_cons.mp h with rfl | h
      · nofun
      · exact ih (hc ▸ List.mem_cons_of_mem first h)

/-- Only the last line may be without its mark. -/
theorem getLast?_of_mem_dropLast_cutLines {l line : List α} (h : line ∈ (cutLines mark l).dropLast) :
    line.getLast? = some mark := by
  fun_induction cutLines mark l generalizing line with
  | case1 => cases h
  | case2 xs ih =>
      cases hc : cutLines mark xs with
      | nil =>
          rw [hc] at h
          cases h
      | cons first lines =>
          rw [hc] at h ih
          rcases List.mem_cons.mp h with rfl | h
          · rfl
          · exact ih h
  | case3 x xs hx hc ih => cases h
  | case4 x xs hx first lines hc ih =>
      cases lines with
      | nil => cases h
      | cons second lines =>
          rw [hc] at ih
          rcases List.mem_cons.mp h with rfl | h
          · have hf := ih List.mem_cons_self
            cases first with
            | nil => cases hf
            | cons y ys => rwa [List.getLast?_cons_cons]
          · exact ih (List.mem_cons_of_mem first h)

/-! ### Whole lines -/

/-- A text up to its last mark: its lines without the one that has no mark. -/
def wholeLines (l : List α) : List α := l.rdropWhile fun x => x != mark

/-- What stands behind the last mark of a text. -/
def openLine (l : List α) : List α := l.rtakeWhile fun x => x != mark

theorem wholeLines_append_openLine (l : List α) : wholeLines mark l ++ openLine mark l = l :=
  List.rdropWhile_append_rtakeWhile

theorem wholeLines_ends (l : List α) :
    wholeLines mark l = [] ∨ (wholeLines mark l).getLast? = some mark := by
  refine or_iff_not_imp_left.mpr fun h => ?_
  have hl := List.rdropWhile_last_not (fun x => x != mark) l h
  rw [bne_iff_ne, not_not] at hl
  rw [List.getLast?_eq_some_getLast h]
  exact congrArg some hl

theorem isPrefix_wholeLines (l : List α) : wholeLines mark l <+: l :=
  ⟨openLine mark l, wholeLines_append_openLine mark l⟩

theorem wholeLines_of_not_mem {mark : α} {l : List α} (h : mark ∉ l) : wholeLines mark l = [] := by
  refine List.rdropWhile_eq_nil_iff.mpr fun x hx => bne_iff_ne.mpr ?_
  rintro rfl
  exact h hx

/-- A text whose last line has its mark is made of whole lines. -/
theorem wholeLines_of_ends {mark : α} {l : List α} (h : l = [] ∨ l.getLast? = some mark) :
    wholeLines mark l = l := by
  refine List.rdropWhile_eq_self_iff.mpr fun hl => ?_
  have hm := h.resolve_left hl
  rw [List.getLast?_eq_some_getLast hl] at hm
  rw [Option.some.inj hm]
  simp

theorem firstLine_of_mem {mark : α} {l : List α} (h : mark ∈ l) :
    ∃ u, mark ∉ u ∧ firstLine mark l = u ++ [mark] := by
  induction l with
  | nil => cases h
  | cons x xs ih =>
      by_cases hx : x = mark
      · exact ⟨[], List.not_mem_nil, by simp [firstLine, hx]⟩
      · obtain ⟨u, hu, hf⟩ := ih ((List.mem_cons.mp h).resolve_left (Ne.symm hx))
        refine ⟨x :: u, ?_, by simp [firstLine, hx, hf]⟩
        rw [List.mem_cons, not_or]
        exact ⟨Ne.symm hx, hu⟩

theorem wholeLines_append (u v : List α) :
    wholeLines mark (u ++ [mark] ++ v) = u ++ [mark] ++ wholeLines mark v := by
  induction v using List.reverseRecOn with
  | nil => simp [wholeLines]
  | append_singleton v x ih =>
      by_cases hx : x = mark
      · simp [wholeLines, hx, ← List.append_assoc]
      · have hw (w : List α) : wholeLines mark (w ++ [x]) = wholeLines mark w :=
          List.rdropWhile_concat_pos _ _ _ (bne_iff_ne.mpr hx)
        rw [← List.append_assoc, hw, hw, ih]

/-- No longer part in front of a text is made of whole lines. -/
theorem prefix_wholeLines {mark : α} {l u : List α} (hu : u <+: l)
    (h : u = [] ∨ u.getLast? = some mark) : u <+: wholeLines mark l := by
  rcases h with rfl | h
  · exact List.nil_prefix
  · obtain ⟨v, rfl⟩ := hu
    obtain ⟨front, rfl⟩ := List.getLast?_eq_some_iff.mp h
    rw [wholeLines_append]
    exact List.prefix_append _ _

/-- The first of the whole lines, and the others. -/
theorem wholeLines_of_mem {mark : α} {l : List α} (h : mark ∈ l) :
    wholeLines mark l = firstLine mark l ++ wholeLines mark (afterLine mark l) := by
  obtain ⟨u, -, hu⟩ := firstLine_of_mem h
  rw [hu, ← wholeLines_append, ← hu, firstLine_append_afterLine]

theorem wholeLines_ne_nil {mark : α} {l : List α} (h : mark ∈ l) : wholeLines mark l ≠ [] := by
  rw [wholeLines_of_mem h]
  exact List.append_ne_nil_of_left_ne_nil
    (mt (firstLine_eq_nil_iff mark).mp (List.ne_nil_of_mem h)) _

theorem firstLine_wholeLines {mark : α} {l : List α} (h : mark ∈ l) :
    firstLine mark (wholeLines mark l) = firstLine mark l ∧
      afterLine mark (wholeLines mark l) = wholeLines mark (afterLine mark l) := by
  obtain ⟨u, hn, hu⟩ := firstLine_of_mem h
  rw [wholeLines_of_mem h, hu, List.append_assoc, firstLine_append hn, afterLine_append hn]
  simp [firstLine, afterLine]

/-- Every line but the open one has one mark. -/
theorem count_of_mem {mark : α} {l : List α} (h : mark ∈ l) :
    l.count mark = 1 + (afterLine mark l).count mark := by
  obtain ⟨u, hn, hu⟩ := firstLine_of_mem h
  calc l.count mark
      = (firstLine mark l ++ afterLine mark l).count mark := by rw [firstLine_append_afterLine]
    _ = 1 + (afterLine mark l).count mark := by
        rw [hu, List.count_append, List.count_append, List.count_eq_zero_of_not_mem hn,
          List.count_singleton_self, Nat.zero_add]

end DeskCalculator

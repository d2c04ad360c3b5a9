import DeskCalculator.Proofs.Text.Lines
import DeskCalculator.Text.Utf8

/-!
# Text — Decoding what was encoded, and decoding line by line

Three facts about bytes and characters.  Decoding takes an encoded text back to the text
(`decode_encode`), and makes nothing of no bytes only (`decode_eq_nil_iff`).  And a newline is one
byte that begins and ends a character wherever it stands, in sound text as in broken text: so the
first line of some bytes, decoded, is the first line of the decoded bytes, and the same holds of what
follows it (`decode_firstLine`, `decode_afterLine`).
-/

namespace DeskCalculator

namespace Utf8

/-- The states the decoder comes to: the next byte is never one of a single character, and the
character that was begun will not be one of the first. -/
def State.Proper : State → Prop
  | .boundary                => True
  | .inside more low _ bits => 0x80 ≤ low ∧ (1 ≤ bits ∨ more ≠ 0 ∧ 0x81 ≤ low)

/-- The character that stands for one that was begun. -/
def State.cut : State → List Char
  | .boundary  => []
  | .inside .. => [replacement]

theorem eq_of_ofNat_eq_newline {n : Nat} (h : '\n' = Char.ofNat n) : n = 10 := by
  have hn : 10 = (Char.ofNat n).toNat := congrArg Char.toNat h
  by_cases hv : n.isValidChar
  · rw [Char.ofNat, dif_pos hv] at hn
    exact hn.symm
  · rw [Char.ofNat, dif_neg hv] at hn
    cases hn

theorem proper_first (b : Nat) : (first b).2.Proper := by
  unfold first
  repeat' split
  all_goals simp only [State.Proper]
  all_goals omega

theorem proper_step {q : State} (hq : q.Proper) (b : Nat) : (step q b).2.Proper := by
  cases q with
  | boundary => exact proper_first b
  | inside more low high bits =>
      simp only [State.Proper] at hq
      simp only [step]
      split
      · split
        · trivial
        · simp only [State.Proper]
          omega
      · exact proper_first b

theorem step_newline {q : State} (hq : q.Proper) : step q 10 = (q.cut ++ ['\n'], .boundary) := by
  cases q with
  | boundary => rfl
  | inside more low high bits =>
      simp only [State.Proper] at hq
      have hn : ¬ (low ≤ 10 ∧ 10 ≤ high) := by omega
      simp only [step, if_neg hn]
      rfl

theorem newline_not_mem_first {b : Nat} (hb : b ≠ 10) : '\n' ∉ (first b).1 := by
  unfold first
  repeat' split
  all_goals simp only [List.mem_singleton, List.not_mem_nil, not_false_eq_true]
  · exact fun h => hb (eq_of_ofNat_eq_newline h)
  all_goals decide

theorem newline_not_mem_step {q : State} (hq : q.Proper) {b : Nat} (hb : b ≠ 10) :
    '\n' ∉ (step q b).1 := by
  cases q with
  | boundary => exact newline_not_mem_first hb
  | inside more low high bits =>
      simp only [State.Proper] at hq
      simp only [step]
      split
      · split
        · rw [List.mem_singleton]
          intro h
          have := eq_of_ofNat_eq_newline h
          omega
        · exact List.not_mem_nil
      · rw [List.mem_cons, not_or]
        exact ⟨by decide, newline_not_mem_first hb⟩

theorem decodeFrom_nil (q : State) : decodeFrom q [] = q.cut := by
  cases q <;> rfl

theorem decodeFrom_cons (q : State) (b : UInt8) (bytes : List UInt8) :
    decodeFrom q (b :: bytes) = (step q b.toNat).1 ++ decodeFrom (step q b.toNat).2 bytes := by
  cases q <;> rfl

theorem newline_not_mem_cut (q : State) : '\n' ∉ q.cut := by
  cases q with
  | boundary => exact List.not_mem_nil
  | inside =>
      show '\n' ∉ [replacement]
      decide

/-- Decoding line by line. -/
theorem decodeFrom_lines {q : State} (hq : q.Proper) (bytes : List UInt8) :
    decodeFrom q (firstLine 10 bytes) = firstLine '\n' (decodeFrom q bytes) ∧
      decode (afterLine 10 bytes) = afterLine '\n' (decodeFrom q bytes) := by
  induction bytes generalizing q with
  | nil =>
      have hn := newline_not_mem_cut q
      rw [firstLine, afterLine, decodeFrom_nil, ← List.append_nil q.cut, firstLine_append hn,
        afterLine_append hn]
      exact ⟨rfl, rfl⟩
  | cons b bytes ih =>
      by_cases hb : b = 10
      · -- a newline cuts off what was begun, and the decoder is at a boundary behind it
        subst hb
        have hn := newline_not_mem_cut q
        simp only [firstLine, afterLine, if_true, decodeFrom_cons,
          show (10 : UInt8).toNat = 10 from rfl, step_newline hq, List.append_assoc,
          firstLine_append hn, afterLine_append hn]
        exact ⟨rfl, rfl⟩
      · have hn := newline_not_mem_step hq (b := b.toNat) fun h => hb (UInt8.toNat_inj.mp h)
        obtain ⟨hf, ha⟩ := ih (proper_step hq b.toNat)
        simp only [firstLine, afterLine, if_neg hb, decodeFrom_cons, firstLine_append hn,
          afterLine_append hn, hf, ha, and_self]

theorem decode_firstLine (bytes : List UInt8) :
    decode (firstLine 10 bytes) = firstLine '\n' (decode bytes) :=
  (decodeFrom_lines (q := .boundary) trivial bytes).1

theorem decode_afterLine (bytes : List UInt8) :
    decode (afterLine 10 bytes) = afterLine '\n' (decode bytes) :=
  (decodeFrom_lines (q := .boundary) trivial bytes).2

/-! ### No byte is lost -/

theorem owed_le_step (q : State) (b : Nat) :
    q.owed ≤ (step q b).1.length + (step q b).2.owed := by
  cases q with
  | boundary => exact Nat.zero_le _
  | inside more low high bits =>
      simp only [step]
      split
      · split <;> exact Nat.le_refl 1
      · rw [List.length_cons]
        show 1 ≤ _
        omega

/-- A character that was begun leaves at least one. -/
theorem owed_le_decodeFrom (q : State) (bytes : List UInt8) :
    q.owed ≤ (decodeFrom q bytes).length := by
  induction bytes generalizing q with
  | nil => cases q <;> exact Nat.le_refl _
  | cons b bytes ih =>
      have hs := owed_le_step q b.toNat
      have hb := ih (step q b.toNat).2
      rw [decodeFrom_cons, List.length_append]
      omega

theorem decode_eq_nil_iff {bytes : List UInt8} : decode bytes = [] ↔ bytes = [] := by
  refine ⟨fun h => ?_, fun h => h ▸ rfl⟩
  cases bytes with
  | nil => rfl
  | cons b bytes =>
      have hf : (first b.toNat).1.length + (first b.toNat).2.owed = 1 := length_first b.toNat
      have hb := owed_le_decodeFrom (first b.toNat).2 bytes
      have hl := congrArg List.length h
      simp only [decode, decodeFrom_cons, step, List.length_append, List.length_nil] at hl
      omega

/-! ### What was encoded -/

/-- A byte in its range continues a character that was begun. -/
theorem decodeFrom_continue {more low high bits n : Nat} {bytes : List UInt8} (hn : n < 256)
    (h : low ≤ n ∧ n ≤ high) :
    decodeFrom (.inside (more + 1) low high bits) (UInt8.ofNat n :: bytes) =
      decodeFrom (.inside more 0x80 0xBF (64 * bits + (n - 0x80))) bytes := by
  rw [decodeFrom_cons, UInt8.toNat_ofNat_of_lt' hn]
  simp only [step, if_pos h, List.nil_append]

/-- The last byte of a character. -/
theorem decodeFrom_last {low high bits n : Nat} {bytes : List UInt8} (hn : n < 256)
    (h : low ≤ n ∧ n ≤ high) :
    decodeFrom (.inside 0 low high bits) (UInt8.ofNat n :: bytes) =
      Char.ofNat (64 * bits + (n - 0x80)) :: decode bytes := by
  rw [decodeFrom_cons, UInt8.toNat_ofNat_of_lt' hn]
  simp only [step, if_pos h]
  rfl

theorem decode_first {n : Nat} {bytes : List UInt8} (hn : n < 256) :
    decode (UInt8.ofNat n :: bytes) = (first n).1 ++ decodeFrom (first n).2 bytes := by
  rw [decode, decodeFrom_cons, UInt8.toNat_ofNat_of_lt' hn]
  rfl

theorem first_two {n : Nat} (h : 0xC2 ≤ n ∧ n < 0xE0) :
    first n = ([], .inside 0 0x80 0xBF (n - 0xC0)) := by
  unfold first
  rw [if_neg (by omega), if_neg (by omega), if_pos h.2]

theorem first_three {n : Nat} (h : 0xE0 ≤ n ∧ n < 0xF0) :
    first n = ([], .inside 1 (if n = 0xE0 then 0xA0 else 0x80) (if n = 0xED then 0x9F else 0xBF)
      (n - 0xE0)) := by
  unfold first
  rw [if_neg (by omega), if_neg (by omega), if_neg (by omega), if_pos h.2]

theorem first_four {n : Nat} (h : 0xF0 ≤ n ∧ n < 0xF5) :
    first n = ([], .inside 2 (if n = 0xF0 then 0x90 else 0x80) (if n = 0xF4 then 0x8F else 0xBF)
      (n - 0xF0)) := by
  unfold first
  rw [if_neg (by omega), if_neg (by omega), if_neg (by omega), if_neg (by omega), if_pos h.2]

theorem decode_encodeChar (c : Char) (bytes : List UInt8) :
    decode (String.utf8EncodeChar c ++ bytes) = c :: decode bytes := by
  have hv : c.val.toNat < 0xD800 ∨ 0xDFFF < c.val.toNat ∧ c.val.toNat < 0x110000 := c.valid
  have hc : Char.ofNat c.val.toNat = c := Char.ofNat_toNat c
  unfold String.utf8EncodeChar
  generalize c.val.toNat = v at hv hc
  subst hc
  dsimp only
  split
  · rw [List.singleton_append, decode_first (by omega), first, if_pos (by omega)]
    rfl
  · split
    · rw [List.cons_append, decode_first (by omega), first_two (by omega), List.nil_append,
        List.singleton_append, decodeFrom_last (by omega) (by omega)]
      exact congrArg (Char.ofNat · :: decode bytes) (by omega)
    · split
      · rw [List.cons_append, decode_first (by omega), first_three (by omega), List.nil_append,
          List.cons_append, decodeFrom_continue (by omega) (by split <;> split <;> omega),
          List.singleton_append, decodeFrom_last (by omega) (by omega)]
        exact congrArg (Char.ofNat · :: decode bytes) (by omega)
      · rw [List.cons_append, decode_first (by omega), first_four (by omega), List.nil_append,
          List.cons_append, decodeFrom_continue (by omega) (by split <;> split <;> omega),
          List.cons_append, decodeFrom_continue (by omega) (by omega),
          List.singleton_append, decodeFrom_last (by omega) (by omega)]
        exact congrArg (Char.ofNat · :: decode bytes) (by omega)

theorem decode_encode (text : List Char) : decode (encode text) = text := by
  induction text with
  | nil => rfl
  | cons c text ih =>
      rw [encode, List.flatMap_cons, decode_encodeChar]
      exact congrArg (c :: ·) ih

end Utf8

end DeskCalculator
